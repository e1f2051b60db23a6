import Mathlib.Algebra.Group.Nat.Even
import Mathlib.Algebra.Order.Group.Multiset
import Mathlib.Data.Multiset.OrderedMonoid
import Mathlib.Tactic.Abel
import Randomizer.Proofs.Placement.Stability

/-!
Coupled groups lose and duplicate nothing. Every sphere moves its items and locations into
placements or onto its side, and in the final sphere what is left on the sides is paired off to the
end, whenever the numbers fit.
-/

namespace Randomizer

/-- The free locations of a side, counted. -/
def Side.free {μ : Type} [Participant μ] (side : Side μ) : Multiset μ := ↑side.locations

/-- As many locations are free as remain. -/
theorem Side.card_free {μ : Type} [Participant μ] (side : Side μ) :
    side.free.card = side.remaining := rfl

/-- No location is free just if none remains. -/
theorem Side.free_eq_zero_iff {μ : Type} [Participant μ] {side : Side μ} :
    side.free = 0 ↔ side.remaining = 0 := by
  rw [free, remaining, Multiset.coe_eq_zero, List.length_eq_zero_iff]

def itemFields {ι μ : Type} (placements : List (Placement ι μ)) : Multiset ι :=
  ↑(placements.map Placement.item)

def locationFields {ι μ : Type} (placements : List (Placement ι μ)) : Multiset μ :=
  ↑(placements.map Placement.location)

@[simp] theorem itemFields_append {ι μ : Type} (first second : List (Placement ι μ)) :
    itemFields (first ++ second) = itemFields first + itemFields second := by
  simp [itemFields]

@[simp] theorem locationFields_append {ι μ : Type} (first second : List (Placement ι μ)) :
    locationFields (first ++ second) = locationFields first + locationFields second := by
  simp [locationFields]

@[simp] theorem itemFields_map_swap {ι μ : Type} (placements : List (Placement ι μ)) :
    itemFields (placements.map Placement.swap) = locationFields placements := by
  rw [itemFields, locationFields, List.map_map]
  rfl

@[simp] theorem locationFields_map_swap {ι μ : Type} (placements : List (Placement ι μ)) :
    locationFields (placements.map Placement.swap) = itemFields placements := by
  rw [itemFields, locationFields, List.map_map]
  rfl

namespace Strategy

section Sides

variable {σ ι μ : Type} [Participant ι] [Participant μ] {strategy next : Strategy σ ι μ}
  {direction : Direction}

/-- A sphere that was placed: its items are in placements, and its side has its locations more and
those of the placements less. -/
theorem free_placeSphere {sphere : Sphere ι μ} {placements : List (Placement ι μ)}
    (ran : placeSphere direction sphere strategy = .ok placements next) :
    itemFields placements = ↑sphere.items ∧
      (strategy.side direction).free + ↑sphere.locations =
        locationFields placements + (next.side direction).free := by
  have placed := placed_placeSphere ran
  exact ⟨congrArg _ placed.items, Multiset.coe_eq_coe.2 placed.locations⟩

end Sides

variable {σ κ : Type} [Participant κ]

/-- A sphere to place with its dual sphere, if the group has a dual side. -/
structure Call (κ : Type) where
  sphere : Sphere κ κ
  dual : Option (Sphere κ κ)

namespace Call

def items (call : Call κ) : List κ := call.sphere.items

def locations (call : Call κ) : List κ := call.sphere.locations

def dualItems (call : Call κ) : List κ := (call.dual.map Sphere.items).getD []

def dualLocations (call : Call κ) : List κ := (call.dual.map Sphere.locations).getD []

def place (call : Call κ) : EStateM Error (Strategy σ κ κ) (List (Placement κ κ)) :=
  placeCoupled call.sphere call.dual

/-- The dual sphere of a call placed, if it has one. -/
def placeDual (call : Call κ) : EStateM Error (Strategy σ κ κ) (List (Placement κ κ)) :=
  match call.dual with
  | some dual => placeSphere .dual dual
  | none => pure []

/-- The spheres of a call placed, with nothing paired off. -/
def placeOwn (call : Call κ) : EStateM Error (Strategy σ κ κ) (List (Placement κ κ)) := do
  let forward ← placeSphere .forward call.sphere
  let dual ← call.placeDual
  return forward ++ dual.map Placement.swap

/-- What a part of the calls has, counted. -/
def total {κ : Type} (part : Call κ → List κ) (calls : List (Call κ)) : Multiset κ :=
  ↑(calls.flatMap part)

omit [Participant κ] in
@[simp] theorem total_append (part : Call κ → List κ) (first second : List (Call κ)) :
    total part (first ++ second) = total part first + total part second := by
  simp [total]

omit [Participant κ] in
@[simp] theorem total_singleton (part : Call κ → List κ) (call : Call κ) :
    total part [call] = ↑(part call) := by
  simp [total]

/-- A call places its own spheres and then, if it is final, pairs off what is left. -/
theorem place_eq (call : Call κ) : (call.place : EStateM Error (Strategy σ κ κ) _) = do
    let own ← call.placeOwn
    let leftover ← if call.sphere.isFinal then
        reconcile call.dual.isSome call.sphere.depth call.sphere.group
      else pure []
    return own ++ leftover := by
  obtain ⟨sphere, dual⟩ := call
  rw [place, placeCoupled, placeOwn]
  cases dual with
  | none | some => simp only [placeDual, bind_assoc, pure_bind]

end Call

/-- Where all participants of some calls are: items in the field that they were placed by, and
locations in placements or still free. -/
structure Accounted (strategy : Strategy σ κ κ) (calls : List (Call κ))
    (placements : List (Placement κ κ)) (next : Strategy σ κ κ)
    (forwardTaken dualTaken : Multiset κ) : Prop where
  items : itemFields placements = Call.total Call.items calls + dualTaken
  locations : locationFields placements = forwardTaken + Call.total Call.dualItems calls
  forward : strategy.forward.free + Call.total Call.locations calls =
    forwardTaken + next.forward.free
  dual : strategy.dual.free + Call.total Call.dualLocations calls = dualTaken + next.dual.free

/-- What two runs account for, they account for together. -/
theorem Accounted.trans {strategy middle next : Strategy σ κ κ} {first second : List (Call κ)}
    {placements others : List (Placement κ κ)} {forwardTaken dualTaken : Multiset κ}
    {forwardLater dualLater : Multiset κ}
    (before : Accounted strategy first placements middle forwardTaken dualTaken)
    (after : Accounted middle second others next forwardLater dualLater) :
    Accounted strategy (first ++ second) (placements ++ others) next
      (forwardTaken + forwardLater) (dualTaken + dualLater) where
  items := by
    rw [itemFields_append, before.items, after.items, Call.total_append]
    abel
  locations := by
    rw [locationFields_append, before.locations, after.locations, Call.total_append]
    abel
  forward := by
    rw [Call.total_append, ← add_assoc, before.forward, add_assoc, after.forward, add_assoc]
  dual := by
    rw [Call.total_append, ← add_assoc, before.dual, add_assoc, after.dual, add_assoc]

/-- The dual side alone accounts for a dual sphere. -/
theorem free_placeDual {strategy next : Strategy σ κ κ} {call : Call κ}
    {placements : List (Placement κ κ)} (ran : call.placeDual strategy = .ok placements next) :
    itemFields placements = ↑call.dualItems ∧
      strategy.dual.free + ↑call.dualLocations = locationFields placements + next.dual.free ∧
      next.forward = strategy.forward := by
  obtain ⟨sphere, dual⟩ := call
  cases dual with
  | none =>
      obtain ⟨rfl, rfl⟩ := EStateM.pure_eq_ok_iff.1 ran
      exact ⟨rfl, add_comm _ _, rfl⟩
  | some dual =>
      obtain ⟨items, free⟩ := free_placeSphere ran
      exact ⟨items, free, (keeps_placeSphere (.other .dual strategy.forward) dual).ok ran rfl⟩

/-- The spheres of a call account for what they take. -/
theorem exists_accounted_placeOwn {strategy next : Strategy σ κ κ} {call : Call κ}
    {placements : List (Placement κ κ)} (ran : call.placeOwn strategy = .ok placements next) :
    ∃ forwardTaken dualTaken,
      Accounted strategy [call] placements next forwardTaken dualTaken := by
  obtain ⟨ofForward, middle, ranForward, continued⟩ := EStateM.bind_eq_ok_iff.1 ran
  obtain ⟨ofDual, last, ranDual, returned⟩ := EStateM.bind_eq_ok_iff.1 continued
  obtain ⟨rfl, rfl⟩ := EStateM.pure_eq_ok_iff.1 returned
  obtain ⟨items, free⟩ := free_placeSphere ranForward
  obtain ⟨dualItems, dualFree, forwardKept⟩ := free_placeDual ranDual
  have dualKept : middle.dual = strategy.dual :=
    (keeps_placeSphere (.other .forward strategy.dual) call.sphere).ok ranForward rfl
  refine ⟨locationFields ofForward, locationFields ofDual, ?_⟩
  exact {
    items := by
      rw [itemFields_append, itemFields_map_swap, items, Call.total_singleton]
      rfl
    locations := by
      rw [locationFields_append, locationFields_map_swap, dualItems, Call.total_singleton]
    forward := by
      rw [Call.total_singleton, forwardKept]
      exact free
    dual := by
      rw [Call.total_singleton, ← dualKept]
      exact dualFree }

/-- The final call pairs off what is left; every other one leaves it. -/
theorem place_of_placeOwn {strategy next : Strategy σ κ κ} {call : Call κ}
    {own : List (Placement κ κ)} (placed : call.placeOwn strategy = .ok own next)
    (isFinal : call.sphere.isFinal) :
    call.place strategy = (do
      let leftover ← reconcile call.dual.isSome call.sphere.depth call.sphere.group
      return own ++ leftover) next := by
  rw [Call.place_eq, EStateM.bind_of_ok placed, if_pos isFinal]

/-- A call that is not final places its own spheres and no more. -/
theorem placeOwn_of_place {strategy next : Strategy σ κ κ} {call : Call κ}
    {placements : List (Placement κ κ)} (notFinal : call.sphere.isFinal = false)
    (ran : call.place strategy = .ok placements next) :
    call.placeOwn strategy = .ok placements next := by
  rw [Call.place_eq, notFinal] at ran
  obtain ⟨own, middle, placed, continued⟩ := EStateM.bind_eq_ok_iff.1 ran
  obtain ⟨leftover, last, nothing, returned⟩ := EStateM.bind_eq_ok_iff.1 continued
  obtain ⟨rfl, rfl⟩ := EStateM.pure_eq_ok_iff.1 nothing
  obtain ⟨rfl, rfl⟩ := EStateM.pure_eq_ok_iff.1 returned
  rw [List.append_nil]
  exact placed

/-- A run of calls that are not final accounts for all their participants. -/
theorem exists_accounted_run {strategy next : Strategy σ κ κ} {calls : List (Call κ)}
    {placements : List (List (Placement κ κ))}
    (notFinal : ∀ call ∈ calls, call.sphere.isFinal = false)
    (ran : calls.mapM Call.place strategy = .ok placements next) :
    ∃ forwardTaken dualTaken,
      Accounted strategy calls placements.flatten next forwardTaken dualTaken := by
  induction calls generalizing strategy placements with
  | nil =>
      cases ran
      exact ⟨0, 0, rfl, rfl, add_comm _ _, add_comm _ _⟩
  | cons call rest ih =>
      rw [List.mapM_cons] at ran
      obtain ⟨first, middle, ranFirst, continued⟩ := EStateM.bind_eq_ok_iff.1 ran
      obtain ⟨others, last, ranRest, returned⟩ := EStateM.bind_eq_ok_iff.1 continued
      obtain ⟨rfl, rfl⟩ := EStateM.pure_eq_ok_iff.1 returned
      obtain ⟨_, _, accountedFirst⟩ :=
        exists_accounted_placeOwn (placeOwn_of_place (notFinal call (by simp)) ranFirst)
      obtain ⟨_, _, accountedRest⟩ :=
        ih (fun other member => notFinal other (by simp [member])) ranRest
      exact ⟨_, _, accountedFirst.trans accountedRest⟩

section Pairing

variable {strategy middle next : Strategy σ κ κ} {direction : Direction} {depth rounds : Nat}
  {group : String} {item : κ} {pools : List (Pool κ)}

/-- A round with something left: the lowest is taken out, then placed, and the other rounds
follow. -/
theorem pairOff_succ_of_lowest
    (lowest : Side.takeLowest? (strategy.side direction).pools = some (item, pools)) :
    pairOff direction depth group (rounds + 1) strategy = (do
      let location ← selectFrom .forward depth group item
      let others ← pairOff direction depth group rounds
      return ⟨item, location⟩ :: others : EStateM Error _ _)
        (strategy.withPools direction pools) := by
  rw [pairOff, EStateM.get_bind_apply, lowest]
  rfl

/-- Rounds that go through: none when nothing is left, or one and then the others. -/
theorem pairOff_succ_eq_ok_iff {placements : List (Placement κ κ)} :
    pairOff direction depth group (rounds + 1) strategy = .ok placements next ↔
      (Side.takeLowest? (strategy.side direction).pools = none ∧ placements = [] ∧
        next = strategy) ∨
      ∃ item pools location middle others,
        Side.takeLowest? (strategy.side direction).pools = some (item, pools) ∧
        selectFrom .forward depth group item (strategy.withPools direction pools) =
          .ok location middle ∧
        pairOff direction depth group rounds middle = .ok others next ∧
        placements = ⟨item, location⟩ :: others := by
  cases lowest : Side.takeLowest? (strategy.side direction).pools with
  | none =>
      rw [pairOff, EStateM.get_bind_apply, lowest]
      dsimp only
      rw [EStateM.pure_eq_ok_iff]
      constructor
      · rintro ⟨rfl, rfl⟩
        exact .inl ⟨rfl, rfl, rfl⟩
      · rintro (⟨_, rfl, rfl⟩ | ⟨_, _, _, _, _, found, _⟩)
        · exact ⟨rfl, rfl⟩
        · cases found
  | some taken =>
      obtain ⟨item, pools⟩ := taken
      rw [pairOff_succ_of_lowest lowest]
      constructor
      · intro ran
        obtain ⟨location, middle, selected, continued⟩ := EStateM.bind_eq_ok_iff.1 ran
        obtain ⟨others, last, ranRest, returned⟩ := EStateM.bind_eq_ok_iff.1 continued
        obtain ⟨rfl, rfl⟩ := EStateM.pure_eq_ok_iff.1 returned
        exact .inr ⟨item, pools, location, middle, others, rfl, selected, ranRest, rfl⟩
      · rintro (⟨none, _⟩ | ⟨_, _, location, middle, others, found, selected, ranRest, rfl⟩)
        · cases none
        · cases found
          refine EStateM.bind_eq_ok_iff.2 ⟨location, middle, selected, ?_⟩
          exact EStateM.bind_eq_ok_iff.2 ⟨others, next, ranRest, rfl⟩

/-- In every round that pairing off comes to, the hooks accept the best location for the item, even
where it violates constraints. -/
def HooksAccept (strategy : Strategy σ κ κ) (direction : Direction) (depth : Nat) (group : String) :
    Prop :=
  ∀ rounds placements next item pools best,
    pairOff direction depth group rounds strategy = .ok placements next →
    Side.takeLowest? (next.side direction).pools = some (item, pools) →
    ((next.withPools direction pools).scan .forward depth item).best = some best →
    ∃ memory, Constraint.reject next.constraints item best.location next.memory = .ok () memory

/-- Hooks that never fail accept whatever they are asked. -/
theorem hooksAccept_of_reject (direction : Direction) (depth : Nat) (group : String)
    (total : ∀ item location memory,
      ∃ later, Constraint.reject strategy.constraints item location memory = .ok () later) :
    strategy.HooksAccept direction depth group := by
  intro rounds placements next item pools best ran _ _
  have same : next.constraints = strategy.constraints :=
    (keeps_pairOff (.constraints _ _) (.constraints _ _) depth group rounds).ok ran rfl
  rw [same]
  exact total item best.location next.memory

/-- A round that goes through: the lowest leftover is placed at a forward location, and the rounds
after it are as they would be on their own. -/
structure Round (direction : Direction) (depth : Nat) (group : String)
    (strategy middle : Strategy σ κ κ) (placement : Placement κ κ) : Prop where
  onward : ∀ rounds others next, pairOff direction depth group rounds middle = .ok others next →
    pairOff direction depth group (rounds + 1) strategy = .ok (placement :: others) next
  accepts : middle.HooksAccept direction depth group

/-- With hooks that accept and a location left, a round pairs off the lowest item. -/
theorem exists_round (accepts : strategy.HooksAccept direction depth group)
    (lowest : Side.takeLowest? (strategy.side direction).pools = some (item, pools))
    (remaining : (strategy.withPools direction pools).forward.remaining ≠ 0) :
    ∃ location middle, Round direction depth group strategy middle ⟨item, location⟩ ∧
      (strategy.withPools direction pools).forward.free = location ::ₘ middle.forward.free ∧
      middle.dual = (strategy.withPools direction pools).dual := by
  have sameHooks (location : κ) :
      Constraint.reject (strategy.withPools direction pools).constraints item location
          (strategy.withPools direction pools).memory =
        Constraint.reject strategy.constraints item location strategy.memory := by
    cases direction <;> rfl
  obtain ⟨location, middle, selected⟩ :=
    exists_selectFrom .forward depth group item remaining fun best found => by
      rw [sameHooks]
      exact accepts 0 [] strategy item pools best rfl lowest found
  have onward (rounds : Nat) (others : List (Placement κ κ)) (next : Strategy σ κ κ)
      (ran : pairOff direction depth group rounds middle = .ok others next) :
      pairOff direction depth group (rounds + 1) strategy =
        .ok (⟨item, location⟩ :: others) next :=
    pairOff_succ_eq_ok_iff.2
      (.inr ⟨item, pools, location, middle, others, lowest, selected, ran, rfl⟩)
  refine ⟨location, middle, ⟨onward, ?_⟩, ?_, ?_⟩
  · intro rounds others next other rest best ran
    exact accepts (rounds + 1) _ next other rest best (onward rounds others next ran)
  · exact Multiset.coe_eq_coe.2 (locations_selectFrom selected)
  · exact (keeps_selectFrom (.other .forward _) _ _ _).ok selected rfl

/-- Something is lowest on a side where something is left. -/
theorem exists_lowest (remaining : (strategy.side direction).remaining ≠ 0) :
    ∃ item pools, Side.takeLowest? (strategy.side direction).pools = some (item, pools) ∧
      (strategy.side direction).free =
        item ::ₘ ((strategy.withPools direction pools).side direction).free := by
  cases lowest : Side.takeLowest? (strategy.side direction).pools with
  | none =>
      have nothing : (strategy.side direction).locations = [] :=
        Side.takeLowest?_eq_none_iff.1 lowest
      exact absurd (congrArg List.length nothing) remaining
  | some taken =>
      obtain ⟨item, pools⟩ := taken
      refine ⟨item, pools, rfl, ?_⟩
      rw [withPools, side_setSide]
      exact Multiset.coe_eq_coe.2 (Side.locations_takeLowest lowest)

/-- Two sides with equally many locations are paired off across, each dual location as an item. -/
theorem exists_pairOff_dual (accepts : strategy.HooksAccept .dual depth group)
    (forward : strategy.forward.remaining = rounds) (dual : strategy.dual.remaining = rounds) :
    ∃ placements next, pairOff .dual depth group rounds strategy = .ok placements next ∧
      next.forward.free = 0 ∧ next.dual.free = 0 ∧
      itemFields placements = strategy.dual.free ∧
      locationFields placements = strategy.forward.free := by
  induction rounds generalizing strategy with
  | zero =>
      have noForward := Side.free_eq_zero_iff.2 forward
      have noDual := Side.free_eq_zero_iff.2 dual
      exact ⟨[], strategy, rfl, noForward, noDual, noDual.symm, noForward.symm⟩
  | succ rounds ih =>
      have dualLeft : (strategy.side .dual).remaining ≠ 0 := by
        intro none
        exact absurd (dual.symm.trans none) (Nat.succ_ne_zero rounds)
      obtain ⟨item, pools, lowest, dualFree⟩ := exists_lowest dualLeft
      have forwardLeft : (strategy.withPools .dual pools).forward.remaining ≠ 0 := by
        intro none
        exact absurd (forward.symm.trans none) (Nat.succ_ne_zero rounds)
      obtain ⟨location, middle, round, forwardFree, dualKept⟩ :=
        exists_round accepts lowest forwardLeft
      have dualSplit : strategy.dual.free = item ::ₘ middle.dual.free := by
        rw [dualKept]
        exact dualFree
      have forwardSplit : strategy.forward.free = location ::ₘ middle.forward.free := forwardFree
      have dualCount := congrArg Multiset.card dualSplit
      have forwardCount := congrArg Multiset.card forwardSplit
      rw [Multiset.card_cons, Side.card_free, Side.card_free] at dualCount forwardCount
      obtain ⟨others, next, ran, noForward, noDual, items, locations⟩ :=
        ih round.accepts (by omega) (by omega)
      refine ⟨_, next, round.onward rounds others next ran, noForward, noDual, ?_, ?_⟩
      · rw [dualSplit, ← items]
        rfl
      · rw [forwardSplit, ← locations]
        rfl

/-- A side with an even number of locations is paired off within, each time the lowest location as
an item. -/
theorem exists_pairOff_forward {count : Nat} (enough : count ≤ rounds)
    (accepts : strategy.HooksAccept .forward depth group)
    (forward : strategy.forward.remaining = 2 * count) :
    ∃ placements next, pairOff .forward depth group rounds strategy = .ok placements next ∧
      next.forward.free = 0 ∧ next.dual = strategy.dual ∧
      itemFields placements + locationFields placements = strategy.forward.free := by
  induction count generalizing rounds strategy with
  | zero =>
      have noForward := Side.free_eq_zero_iff.2 forward
      refine ⟨[], strategy, ?_, noForward, rfl, noForward.symm⟩
      cases rounds with
      | zero => rfl
      | succ rounds =>
          have nothing : strategy.forward.locations = [] := List.length_eq_zero_iff.1 forward
          exact pairOff_succ_eq_ok_iff.2
            (.inl ⟨Side.takeLowest?_eq_none_iff.2 nothing, rfl, rfl⟩)
  | succ count ih =>
      obtain ⟨rounds, rfl⟩ := Nat.exists_eq_succ_of_ne_zero (by omega : rounds ≠ 0)
      have known : (strategy.side .forward).remaining = 2 * (count + 1) := forward
      have left : (strategy.side .forward).remaining ≠ 0 := by omega
      obtain ⟨item, pools, lowest, free⟩ := exists_lowest left
      have taken := congrArg Multiset.card free
      rw [Multiset.card_cons, Side.card_free, Side.card_free, known] at taken
      have stillLeft : (strategy.withPools .forward pools).forward.remaining ≠ 0 := by
        intro none
        have nothing : ((strategy.withPools .forward pools).side .forward).remaining = 0 := none
        omega
      obtain ⟨location, middle, round, takenFree, dualKept⟩ :=
        exists_round accepts lowest stillLeft
      have split : strategy.forward.free = item ::ₘ location ::ₘ middle.forward.free := by
        rw [← takenFree]
        exact free
      have whole := congrArg Multiset.card split
      rw [Multiset.card_cons, Multiset.card_cons, Side.card_free, Side.card_free] at whole
      obtain ⟨others, next, ran, noForward, dualSame, fields⟩ :=
        ih (Nat.le_of_succ_le_succ enough) round.accepts (by omega)
      refine ⟨_, next, round.onward rounds others next ran, noForward, ?_, ?_⟩
      · rw [dualSame, dualKept]
        rfl
      · have ofItems : itemFields ((⟨item, location⟩ : Placement κ κ) :: others) =
            item ::ₘ itemFields others := rfl
        have ofLocations : locationFields ((⟨item, location⟩ : Placement κ κ) :: others) =
            location ::ₘ locationFields others := rfl
        rw [ofItems, ofLocations, split, ← fields, Multiset.cons_add, Multiset.add_cons]

end Pairing

section Final

variable {strategy next : Strategy σ κ κ} {hasDual : Bool} {depth : Nat} {group : String}

/-- The numbers of locations that are left fit: equally many on both sides, or, in a group that is
its own dual, an even number. -/
def Balanced (strategy : Strategy σ κ κ) : Bool → Prop
  | true => strategy.forward.remaining = strategy.dual.remaining
  | false => Even strategy.forward.remaining

/-- How many locations are left over where the numbers do not fit. -/
def surplus (strategy : Strategy σ κ κ) : Bool → Nat
  | true => ((strategy.forward.remaining : Int) - strategy.dual.remaining).natAbs
  | false => 1

/-- Balanced sides have no imbalance. -/
theorem imbalance_of_balanced (balanced : strategy.Balanced hasDual) :
    strategy.imbalance hasDual = 0 := by
  cases hasDual with
  | true =>
      have same : strategy.forward.remaining = strategy.dual.remaining := balanced
      simp [imbalance, same]
  | false => exact Nat.even_iff.1 balanced

/-- The imbalance of uneven sides is their surplus. -/
theorem imbalance_of_not_balanced (uneven : ¬ strategy.Balanced hasDual) :
    strategy.imbalance hasDual = strategy.surplus hasDual ∧ strategy.surplus hasDual ≠ 0 := by
  cases hasDual with
  | true =>
      have apart : strategy.forward.remaining ≠ strategy.dual.remaining := uneven
      simp only [imbalance, surplus, if_true]
      omega
  | false => exact ⟨Nat.not_even_iff.1 uneven, Nat.one_ne_zero⟩

/-- Uneven sides are refused with their surplus, and nothing changes. -/
theorem reconcile_of_not_balanced (depth : Nat) (group : String)
    (uneven : ¬ strategy.Balanced hasDual) :
    reconcile hasDual depth group strategy =
      .error (.unbalanced group (strategy.surplus hasDual)) strategy := by
  obtain ⟨same, some⟩ := imbalance_of_not_balanced uneven
  rw [reconcile, EStateM.get_bind_apply, same, if_pos some]
  rfl

/-- A reconciliation that succeeds has had balanced sides. -/
theorem balanced_of_reconcile {placements : List (Placement κ κ)}
    (ran : reconcile hasDual depth group strategy = .ok placements next) :
    strategy.Balanced hasDual := by
  by_contra uneven
  cases ran.symm.trans (reconcile_of_not_balanced depth group uneven)

/-- Balanced sides are paired off until no item is left. -/
theorem reconcile_of_balanced (depth : Nat) (group : String)
    (balanced : strategy.Balanced hasDual) :
    reconcile hasDual depth group strategy = (do
      let placements ← pairOff (leftoverSide hasDual) depth group
        (strategy.side (leftoverSide hasDual)).remaining
      let leftover := (← get).remainingLocations
      if leftover ≠ 0 then throw (.unbalanced group leftover)
      return placements : EStateM Error _ _) strategy := by
  rw [reconcile, EStateM.get_bind_apply, imbalance_of_balanced balanced,
    if_neg (not_not_intro rfl)]

/-- A reconciliation succeeds when pairing off leaves nothing. -/
theorem reconcile_of_pairOff (balanced : strategy.Balanced hasDual)
    {placements : List (Placement κ κ)}
    (paired : pairOff (leftoverSide hasDual) depth group
      (strategy.side (leftoverSide hasDual)).remaining strategy = .ok placements next)
    (drained : next.forward.free = 0) :
    reconcile hasDual depth group strategy = .ok placements next := by
  have nothing : next.remainingLocations = 0 := Side.free_eq_zero_iff.1 drained
  rw [reconcile_of_balanced depth group balanced, EStateM.bind_of_ok paired,
    EStateM.get_bind_apply, nothing, if_neg (not_not_intro rfl)]
  rfl

/-- What the placements of a reconciliation hold: locations of the sides as they were. -/
def Pairs (strategy : Strategy σ κ κ) (placements : List (Placement κ κ)) : Bool → Prop
  | true => itemFields placements = strategy.dual.free ∧
      locationFields placements = strategy.forward.free
  | false => itemFields placements + locationFields placements = strategy.forward.free

/-- Where the numbers fit, everything is paired off; no selection finds its side empty and nothing
is left at the end. -/
theorem exists_reconcile (balanced : strategy.Balanced hasDual)
    (accepts : strategy.HooksAccept (leftoverSide hasDual) depth group)
    (alone : hasDual = false → strategy.dual.free = 0) :
    ∃ placements next, reconcile hasDual depth group strategy = .ok placements next ∧
      next.forward.free = 0 ∧ next.dual.free = 0 ∧ strategy.Pairs placements hasDual := by
  cases hasDual with
  | true =>
      obtain ⟨placements, next, paired, noForward, noDual, items, locations⟩ :=
        exists_pairOff_dual accepts balanced rfl
      exact ⟨placements, next, reconcile_of_pairOff balanced paired noForward, noForward, noDual,
        items, locations⟩
  | false =>
      have even : Even strategy.forward.remaining := balanced
      obtain ⟨count, sum⟩ := even
      have twice : strategy.forward.remaining = 2 * count := by omega
      have enough : count ≤ strategy.forward.remaining := by omega
      obtain ⟨placements, next, paired, noForward, dualSame, fields⟩ :=
        exists_pairOff_forward enough accepts twice
      refine ⟨placements, next, reconcile_of_pairOff balanced paired noForward, noForward,
        ?_, fields⟩
      rw [dualSame, alone rfl]

/-- What the placements of a whole run hold. In a group with a dual side the items are the forward
items and the dual locations, and the locations are the forward locations and the dual items. In one
that is its own dual, some locations have turned into items and the others are still locations. -/
inductive Complete (calls : List (Call κ)) (placements : List (Placement κ κ)) : Bool → Prop where
  | coupled :
      itemFields placements =
        Call.total Call.items calls + Call.total Call.dualLocations calls →
      locationFields placements =
        Call.total Call.locations calls + Call.total Call.dualItems calls →
      Complete calls placements true
  | alone (turned : Multiset κ) :
      itemFields placements = Call.total Call.items calls + turned →
      turned + locationFields placements = Call.total Call.locations calls →
      Complete calls placements false

/-- All participants of some calls, counted. -/
def participants (calls : List (Call κ)) : Multiset κ :=
  Call.total Call.items calls + Call.total Call.locations calls +
    (Call.total Call.dualItems calls + Call.total Call.dualLocations calls)

omit [Participant κ] in
/-- Without dual spheres there are no dual participants. -/
theorem total_dual_eq_zero {calls : List (Call κ)}
    (alone : ∀ call ∈ calls, call.dual.isSome = false) :
    Call.total Call.dualItems calls = 0 ∧ Call.total Call.dualLocations calls = 0 := by
  have nothing (call : Call κ) (member : call ∈ calls) : call.dual = none :=
    Option.isSome_eq_false_iff.1 (alone call member) |> Option.isNone_iff_eq_none.1
  constructor
  · refine congrArg _ (List.flatMap_eq_nil_iff.2 fun call member => ?_)
    rw [Call.dualItems, nothing call member]
    rfl
  · refine congrArg _ (List.flatMap_eq_nil_iff.2 fun call member => ?_)
    rw [Call.dualLocations, nothing call member]
    rfl

omit [Participant κ] in
/-- In a complete run every participant is in exactly one field of one placement. -/
theorem Complete.fields {calls : List (Call κ)} {placements : List (Placement κ κ)}
    (complete : Complete calls placements hasDual)
    (uniform : ∀ call ∈ calls, call.dual.isSome = hasDual) :
    itemFields placements + locationFields placements = participants calls := by
  cases complete with
  | coupled items locations =>
      rw [items, locations, participants]
      abel
  | alone turned items locations =>
      obtain ⟨noItems, noLocations⟩ := total_dual_eq_zero uniform
      rw [items, participants, noItems, noLocations, ← locations]
      abel

/-- A run that starts and ends with nothing on the sides is complete. -/
theorem Accounted.complete {calls : List (Call κ)} {placements leftover : List (Placement κ κ)}
    {forwardTaken dualTaken : Multiset κ}
    (accounted : Accounted strategy calls placements next forwardTaken dualTaken)
    (noForward : strategy.forward.free = 0) (noDual : strategy.dual.free = 0)
    (uniform : ∀ call ∈ calls, call.dual.isSome = hasDual)
    (pairs : next.Pairs leftover hasDual) : Complete calls (placements ++ leftover) hasDual := by
  have forward := accounted.forward
  have dual := accounted.dual
  rw [noForward, zero_add] at forward
  rw [noDual, zero_add] at dual
  cases hasDual with
  | true =>
      obtain ⟨items, locations⟩ := pairs
      refine .coupled ?_ ?_
      · rw [itemFields_append, accounted.items, items, dual, add_assoc]
      · rw [locationFields_append, accounted.locations, locations, forward]
        abel
  | false =>
      obtain ⟨noItems, noLocations⟩ := total_dual_eq_zero uniform
      rw [noLocations] at dual
      obtain ⟨noneTaken, _⟩ := add_eq_zero.1 dual.symm
      have fields : itemFields leftover + locationFields leftover = next.forward.free := pairs
      refine .alone (itemFields leftover) ?_ ?_
      · rw [itemFields_append, accounted.items, noneTaken, add_zero]
      · rw [locationFields_append, accounted.locations, noItems, forward, ← fields]
        abel

/-- Without dual spheres the dual side stays empty. -/
theorem Accounted.dual_free {calls : List (Call κ)} {placements : List (Placement κ κ)}
    {forwardTaken dualTaken : Multiset κ}
    (accounted : Accounted strategy calls placements next forwardTaken dualTaken)
    (noDual : strategy.dual.free = 0) (alone : ∀ call ∈ calls, call.dual.isSome = false) :
    next.dual.free = 0 := by
  have dual := accounted.dual
  rw [noDual, (total_dual_eq_zero alone).2, zero_add] at dual
  exact (add_eq_zero.1 dual.symm).2

/-- A run of calls on a strategy that has placed nothing, all with a dual sphere or none, of which
only the last is final. Once the items of its own spheres have found locations, the final call
succeeds just when the numbers of locations left fit, and is refused with their surplus otherwise.
When it succeeds nothing is left on either side, and every participant of the run is in exactly one
field of one placement. -/
theorem place_final {middle before : Strategy σ κ κ} {earlier : List (Call κ)} {call : Call κ}
    {placements : List (List (Placement κ κ))} {own : List (Placement κ κ)}
    (fresh : strategy.forward = ∅ ∧ strategy.dual = ∅)
    (uniform : ∀ other ∈ earlier, other.dual.isSome = call.dual.isSome)
    (notFinal : ∀ other ∈ earlier, other.sphere.isFinal = false) (isFinal : call.sphere.isFinal)
    (ran : earlier.mapM Call.place strategy = .ok placements middle)
    (placed : call.placeOwn middle = .ok own before)
    (accepts : before.HooksAccept (leftoverSide call.dual.isSome) call.sphere.depth
      call.sphere.group) :
    (before.Balanced call.dual.isSome → ∃ leftover next,
      call.place middle = .ok (own ++ leftover) next ∧
        next.forward.remaining = 0 ∧ next.dual.remaining = 0 ∧
        Complete (earlier ++ [call]) (placements.flatten ++ (own ++ leftover)) call.dual.isSome ∧
        itemFields (placements.flatten ++ (own ++ leftover)) +
            locationFields (placements.flatten ++ (own ++ leftover)) =
          participants (earlier ++ [call])) ∧
    (¬ before.Balanced call.dual.isSome →
      call.place middle = .error
        (.unbalanced call.sphere.group (before.surplus call.dual.isSome)) before) := by
  have noForward : strategy.forward.free = 0 := by
    rw [fresh.1]
    rfl
  have noDual : strategy.dual.free = 0 := by
    rw [fresh.2]
    rfl
  have uniformAll : ∀ other ∈ earlier ++ [call], other.dual.isSome = call.dual.isSome :=
    List.forall_mem_append.2 ⟨uniform, List.forall_mem_singleton.2 rfl⟩
  obtain ⟨_, _, accountedEarlier⟩ := exists_accounted_run notFinal ran
  obtain ⟨_, _, accountedOwn⟩ := exists_accounted_placeOwn placed
  have accounted := accountedEarlier.trans accountedOwn
  rw [place_of_placeOwn placed isFinal]
  constructor
  · intro balanced
    have alone (none : call.dual.isSome = false) : before.dual.free = 0 :=
      accounted.dual_free noDual (none ▸ uniformAll)
    obtain ⟨leftover, next, reconciled, drained, drainedDual, pairs⟩ :=
      exists_reconcile balanced accepts alone
    have complete := accounted.complete noForward noDual uniformAll pairs
    rw [List.append_assoc] at complete
    refine ⟨leftover, next, ?_, Side.free_eq_zero_iff.1 drained,
      Side.free_eq_zero_iff.1 drainedDual, complete, complete.fields uniformAll⟩
    exact EStateM.bind_eq_ok_iff.2 ⟨leftover, next, reconciled, rfl⟩
  · intro uneven
    exact EStateM.bind_of_error (reconcile_of_not_balanced _ _ uneven)

/-- A gate by which its scene is always reached. -/
def gate (name : String) : WorldTransition :=
  .ofTransition ⟨name, name, name, ⟨0⟩, ⟨name, []⟩, .twoWay⟩

def opening : Call WorldTransition where
  sphere := ⟨0, "Left", [], [gate "L1"], false⟩
  dual := some ⟨0, "Right", [], [gate "R1"], false⟩

/-- The item of each side takes the gate that was opened there, and the new gates are left. -/
def closing : Call WorldTransition where
  sphere := ⟨1, "Left", [gate "R2"], [gate "L3"], true⟩
  dual := some ⟨1, "Right", [gate "L2"], [gate "R3"], true⟩

def unplaced : Strategy Unit WorldTransition WorldTransition := create Transform.identity [] ()

/-- Two calls for the gates place all of them, on both sides. -/
theorem place_final_gates : ∃ placements middle placed next,
    [opening].mapM Call.place unplaced = .ok placements middle ∧
      closing.place middle = .ok placed next ∧ next.forward.remaining = 0 ∧
        Complete [opening, closing] (placements.flatten ++ placed) true := by
  have ran : (do
      let _ ← [opening].mapM Call.place
      let _ ← closing.placeOwn
      let before ← get
      return (before.constraints.isEmpty, before.forward.remaining, before.dual.remaining) :
      EStateM Error (Strategy Unit WorldTransition WorldTransition) (Bool × Nat × Nat)).run'
        unplaced = some (true, 1, 1) := by decide +kernel
  obtain ⟨_, ranAll⟩ := EStateM.run'_eq_some_iff.1 ran
  obtain ⟨placements, middle, ranOpening, continued⟩ := EStateM.bind_eq_ok_iff.1 ranAll
  obtain ⟨own, before, placedOwn, measured⟩ := EStateM.bind_eq_ok_iff.1 continued
  rw [EStateM.get_bind_apply, EStateM.pure_eq_ok_iff] at measured
  obtain ⟨noConstraints, forward, dual⟩ := by simpa using measured.1
  have accepts : before.HooksAccept .dual 1 "Left" := by
    apply hooksAccept_of_reject
    intro item location memory
    rw [noConstraints]
    exact ⟨memory, rfl⟩
  have balanced : before.Balanced true := forward.trans dual.symm
  obtain ⟨leftover, next, placed, drained, _, complete, _⟩ :=
    (place_final ⟨rfl, rfl⟩ (by decide) (by decide) rfl ranOpening placedOwn accepts).1 balanced
  exact ⟨placements, middle, own ++ leftover, next, ranOpening, placed, drained, complete⟩

end Final

end Strategy

end Randomizer
