import Randomizer.Proofs.Placement.History
import Randomizer.Proofs.Placement.Memory
import Randomizer.Proofs.Placement.Merge
import Randomizer.Proofs.Placement.Reconciliation
import Randomizer.Proofs.SortedList.Construction

/-!
The order in which leftovers turn into items. The lowest of the pool heads is lowest of all, since
every pool stays in order whatever selections remove from it. So a reconciliation of two sides
places the dual locations that are left just as the items of a sphere that lists them sorted.
-/

namespace Randomizer

/-- One element is not below another just if the other is not above it. -/
theorem Participant.order_ne_lt_iff {α : Type} [Participant α] {first second : α} :
    order first second ≠ .lt ↔ order second first ≠ .gt :=
  not_congr Std.OrientedCmp.gt_iff_lt.symm

namespace Side

variable {μ : Type} [Participant μ]

/-- No participant of any pool comes before this one. -/
def Leads (pools : List (Pool μ)) (participant : μ) : Prop :=
  ∀ other ∈ pools.flatMap SortedList.items, Participant.order other participant ≠ .lt

/-- A participant that leads is taken from the front of a pool. No older pool has one that leads,
and all others stay where they are. -/
def TakesLowest (pools : List (Pool μ)) (lowest : μ) (rest : List (Pool μ)) : Prop :=
  ∃ older items newer, pools = older ++ ⟨lowest :: items⟩ :: newer ∧
    rest = older ++ ⟨items⟩ :: newer ∧ Leads pools lowest ∧
    ∀ other ∈ older.flatMap SortedList.items, ¬ Leads pools other

/-- The first pool that has one that leads is not behind another that has. -/
theorem length_le_of_leads {pools older newer others later : List (Pool μ)} {pool : Pool μ}
    {lowest : μ} (split : pools = older ++ pool :: newer) (member : lowest ∈ pool.items)
    (leads : Leads pools lowest) (splitToo : pools = others ++ later)
    (first : ∀ other ∈ others.flatMap SortedList.items, ¬ Leads pools other) :
    others.length ≤ older.length := by
  by_contra shorter
  have here : pools[older.length]? = some pool := by
    rw [split, List.getElem?_append_right (Nat.le_refl _), Nat.sub_self, List.getElem?_cons_zero]
  rw [splitToo, List.getElem?_append_left (Nat.lt_of_not_le shorter)] at here
  exact first lowest (List.mem_flatMap.2 ⟨pool, List.mem_of_getElem? here, member⟩) leads

/-- The lowest location and what is left without it are unique. -/
theorem TakesLowest.unique {pools rest others : List (Pool μ)} {lowest other : μ}
    (takes : TakesLowest pools lowest rest) (takesToo : TakesLowest pools other others) :
    lowest = other ∧ rest = others := by
  obtain ⟨older, items, newer, split, rfl, leads, first⟩ := takes
  obtain ⟨before, left, after, splitToo, rfl, leadsToo, firstToo⟩ := takesToo
  have length : older.length = before.length := Nat.le_antisymm
    (length_le_of_leads splitToo List.mem_cons_self leadsToo split first)
    (length_le_of_leads split List.mem_cons_self leads splitToo firstToo)
  obtain ⟨rfl, same⟩ := List.append_inj (split.symm.trans splitToo) length
  cases same
  exact ⟨rfl, rfl⟩

/-- All of the older pools come after the head of a pool, and nothing else before it. -/
structure Foremost (older : List (Pool μ)) (lowest : μ) (others : List μ) : Prop where
  older : ∀ other ∈ older.flatMap SortedList.items, Participant.order lowest other = .lt
  others : ∀ other ∈ others, Participant.order lowest other ≠ .gt

/-- What is above nothing is foremost among no older pools. -/
theorem Foremost.nil {lowest : μ} {others : List μ}
    (notAbove : ∀ other ∈ others, Participant.order lowest other ≠ .gt) :
    Foremost [] lowest others :=
  ⟨nofun, notAbove⟩

/-- The foremost of all is above none of them. -/
theorem Foremost.not_above {older newer : List (Pool μ)} {lowest : μ} {items : List μ}
    (foremost : Foremost older lowest (items ++ newer.flatMap SortedList.items)) :
    ∀ other ∈ (older ++ ⟨lowest :: items⟩ :: newer).flatMap SortedList.items,
      Participant.order lowest other ≠ .gt := by
  rw [List.flatMap_append, List.flatMap_cons]
  refine List.forall_mem_append.2 ⟨fun other member => ?_,
    List.forall_mem_cons.2 ⟨?_, foremost.others⟩⟩
  · rw [foremost.older other member]
    nofun
  · have same : Participant.order lowest lowest = .eq := Std.ReflCmp.compare_self
    rw [same]
    nofun

/-- A pool with a head is the head before the rest. -/
theorem eq_mk_of_min? {pool : Pool μ} {head : μ} (first : pool.min? = some head) :
    pool = ⟨head :: (pool.eraseIndex 0).items⟩ :=
  congrArg SortedList.mk (SortedList.items_of_min? first)

/-- In a pool that is in order the head is foremost. -/
theorem not_above_head {pool : Pool μ} {head other : μ} (ascending : pool.Ascending)
    (first : pool.min? = some head) (member : other ∈ pool.items) :
    Participant.order head other ≠ .gt := by
  rw [SortedList.Ascending, SortedList.items_of_min? first] at ascending
  rw [SortedList.items_of_min? first] at member
  exact StableSort.not_above_head ascending member

/-- The head that is taken is foremost. The recursion compares it with the foremost of the newer
pools. -/
theorem exists_foremost {pools rest : List (Pool μ)} {lowest : μ}
    (ascending : ∀ pool ∈ pools, pool.Ascending)
    (taken : takeLowest? pools = some (lowest, rest)) :
    ∃ older items newer, pools = older ++ ⟨lowest :: items⟩ :: newer ∧
      rest = older ++ ⟨items⟩ :: newer ∧
      Foremost older lowest (items ++ newer.flatMap SortedList.items) := by
  induction pools generalizing lowest rest with
  | nil => cases taken
  | cons pool others ih =>
      obtain ⟨ascendingPool, ascendingOthers⟩ := List.forall_mem_cons.1 ascending
      rw [takeLowest?] at taken
      split at taken
      · cases taken
      · next low remaining first found =>
        cases taken
        obtain ⟨older, items, newer, rfl, rfl, foremost⟩ := ih ascendingOthers found
        refine ⟨pool :: older, items, newer, rfl, rfl, ?_, foremost.others⟩
        rw [List.flatMap_cons, SortedList.items_eq_nil_of_min? first]
        exact foremost.older
      · next head first found =>
        cases taken
        refine ⟨[], _, others, congrArg (· :: others) (eq_mk_of_min? first), rfl, .nil ?_⟩
        rw [takeLowest?_eq_none_iff.1 found, List.append_nil]
        exact fun other member =>
          not_above_head ascendingPool first (List.mem_of_mem_eraseIdx member)
      · next head low remaining first found =>
        obtain ⟨older, items, newer, same, left, foremost⟩ := ih ascendingOthers found
        split at taken
        · next lower =>
          cases taken
          subst same left
          refine ⟨pool :: older, items, newer, rfl, rfl, ?_, foremost.others⟩
          refine List.forall_mem_append.2 ⟨fun other member => ?_, foremost.older⟩
          have below := not_above_head ascendingPool first member
          exact Std.TransCmp.lt_of_lt_of_isLE lower (Ordering.isLE_iff_ne_gt.2 below)
        · next notLower =>
          cases taken
          refine ⟨[], _, others, congrArg (· :: others) (eq_mk_of_min? first), rfl, .nil ?_⟩
          refine List.forall_mem_append.2 ⟨fun other member => ?_, fun other member => ?_⟩
          · exact not_above_head ascendingPool first (List.mem_of_mem_eraseIdx member)
          · rw [same] at member
            exact SortedList.ne_gt_trans (Participant.order_ne_lt_iff.1 notLower)
              (foremost.not_above other member)

/-- Where all pools ascend, the location that is taken is the lowest, out of the oldest pool that
has it. -/
theorem takesLowest_of_takeLowest? {pools rest : List (Pool μ)} {lowest : μ}
    (ascending : ∀ pool ∈ pools, pool.Ascending)
    (taken : takeLowest? pools = some (lowest, rest)) : TakesLowest pools lowest rest := by
  obtain ⟨older, items, newer, rfl, rfl, foremost⟩ := exists_foremost ascending taken
  refine ⟨older, items, newer, rfl, rfl, fun other member => ?_, fun other member leads => ?_⟩
  · exact Participant.order_ne_lt_iff.2 (foremost.not_above other member)
  · have among : lowest ∈ (older ++ ⟨lowest :: items⟩ :: newer).flatMap SortedList.items := by simp
    exact leads lowest among (foremost.older other member)

/-- A participant is taken just when it leads and is the first to. -/
theorem takeLowest?_eq_some_iff {pools rest : List (Pool μ)} {lowest : μ}
    (ascending : ∀ pool ∈ pools, pool.Ascending) :
    takeLowest? pools = some (lowest, rest) ↔ TakesLowest pools lowest rest := by
  refine ⟨takesLowest_of_takeLowest? ascending, fun takes => ?_⟩
  cases taken : takeLowest? pools with
  | none =>
      obtain ⟨older, items, newer, rfl, _⟩ := takes
      have nothing := takeLowest?_eq_none_iff.1 taken
      simp at nothing
  | some found =>
      obtain ⟨rfl, rfl⟩ := (takesLowest_of_takeLowest? ascending taken).unique takes
      rfl

/-- What is left is in order. -/
theorem TakesLowest.ascending {pools rest : List (Pool μ)} {lowest : μ}
    (takes : TakesLowest pools lowest rest) (ascending : ∀ pool ∈ pools, pool.Ascending) :
    ∀ pool ∈ rest, pool.Ascending := by
  obtain ⟨older, items, newer, rfl, rfl, _⟩ := takes
  obtain ⟨inOlder, others⟩ := List.forall_mem_append.1 ascending
  obtain ⟨here, inNewer⟩ := List.forall_mem_cons.1 others
  have left : (⟨items⟩ : Pool μ).Ascending := here.eraseIndex 0
  exact List.forall_mem_append.2 ⟨inOlder, List.forall_mem_cons.2 ⟨left, inNewer⟩⟩

/-- What is taken comes first in a stable sort of all pools, the oldest first, and what is left
follows. -/
theorem ofList_of_takeLowest? {pools rest : List (Pool μ)} {lowest : μ}
    (ascending : ∀ pool ∈ pools, pool.Ascending)
    (taken : takeLowest? pools = some (lowest, rest)) :
    (SortedList.ofList (pools.flatMap SortedList.items) : Pool μ).items =
      lowest :: (SortedList.ofList (rest.flatMap SortedList.items) : Pool μ).items := by
  obtain ⟨older, items, newer, rfl, rfl, foremost⟩ := exists_foremost ascending taken
  simp only [SortedList.ofList, List.flatMap_append, List.flatMap_cons, List.cons_append]
  refine mergeSort_append_cons SortedList.bne_gt_trans SortedList.bne_gt_total ?_ ?_
  · intro earlier member
    rw [bne_iff_ne, not_not, Std.OrientedCmp.gt_iff_lt]
    exact foremost.older earlier member
  · intro later member
    rw [bne_iff_ne]
    exact foremost.others later member

end Side

namespace Strategy

variable {σ κ : Type} [Participant κ]

/-- The same strategy but for its dual side. -/
def SameButDual (first second : Strategy σ κ κ) : Prop :=
  second = { first with dual := second.dual }

section Pairing

variable {paired selected : Strategy σ κ κ} {depth : Nat} {group : String}

/-- Strategies that differ on the dual side have the same forward side. -/
theorem SameButDual.forward (same : SameButDual paired selected) :
    selected.forward = paired.forward := by
  rw [same]

/-- A search among the forward locations does not look at the dual side. -/
theorem agree_selectFrom_forward (same : SameButDual paired selected) (depth : Nat)
    (group : String) (item : κ) :
    EStateM.Agree SameButDual (selectFrom .forward depth group item paired)
      (selectFrom .forward depth group item selected) := by
  rw [same]
  generalize selected.dual = dual
  have transform : ({ paired with dual } : Strategy σ κ κ).transform = paired.transform := rfl
  have constraints : ({ paired with dual } : Strategy σ κ κ).constraints = paired.constraints := rfl
  have side : ({ paired with dual } : Strategy σ κ κ).side .forward = paired.side .forward := rfl
  simp only [selectFrom, scan_congr transform constraints side]
  cases (paired.scan .forward depth item).best with
  | none => exact .error rfl
  | some best =>
      dsimp only
      cases Constraint.reject paired.constraints item best.location paired.memory with
      | error error memory => exact .error rfl
      | ok _ memory => exact .ok rfl

/-- Pairing off places the leftover dual locations as items, in their order. -/
theorem agree_pairOff {rounds : Nat} (same : SameButDual paired selected)
    (ordered : paired.dual.Ordered) (counted : paired.dual.remaining = rounds) (depth : Nat)
    (group : String) :
    EStateM.Agree SameButDual (pairOff .dual depth group rounds paired)
      (selectAll .forward depth group
        (SortedList.ofList paired.dual.locations : Pool κ).items selected) := by
  induction rounds generalizing paired selected with
  | zero =>
      have nothing : paired.dual.locations = [] := List.length_eq_zero_iff.1 counted
      have none : (SortedList.ofList [] : Pool κ).items = [] := List.mergeSort_nil
      rw [nothing, none]
      exact .ok same
  | succ rounds ih =>
      have left : (paired.side .dual).remaining ≠ 0 := by
        intro none
        exact absurd (counted.symm.trans none) (Nat.succ_ne_zero rounds)
      obtain ⟨item, pools, taken, free⟩ := exists_lowest left
      have leads : (SortedList.ofList paired.dual.locations : Pool κ).items =
          item :: (SortedList.ofList (pools.flatMap SortedList.items) : Pool κ).items :=
        Side.ofList_of_takeLowest? ordered taken
      have fewer := congrArg Multiset.card free
      rw [Multiset.card_cons, Side.card_free, Side.card_free] at fewer
      have without : SameButDual (paired.withPools .dual pools) selected := same
      have agree := agree_selectFrom_forward without depth group item
      rw [leads, selectAll_cons, pairOff_succ_of_lowest taken]
      generalize ran : selectFrom .forward depth group item (paired.withPools .dual pools) = result
        at agree
      generalize ranToo : selectFrom .forward depth group item selected = other at agree
      cases agree with
      | @ok location next later kept =>
          have dual : next.dual = { paired.dual with pools } :=
            (keeps_selectFrom (.other .forward _) depth group item).ok ran rfl
          have orderedNext : next.dual.Ordered := by
            rw [dual]
            exact (Side.takesLowest_of_takeLowest? ordered taken).ascending ordered
          have countedNext : next.dual.remaining = rounds := by
            rw [dual]
            exact Nat.succ.inj (fewer.symm.trans counted)
          have rest := ih kept orderedNext countedNext
          rw [dual] at rest
          rw [EStateM.bind_of_ok ran, EStateM.bind_of_ok ranToo]
          exact rest.bind fun others last lastToo keptRest => .ok keptRest
      | error kept =>
          rw [EStateM.bind_of_error ran, EStateM.bind_of_error ranToo]
          exact .error kept

/-- Where the numbers fit, a reconciliation of two sides places the leftover dual locations in their
order, as a sphere of them would be placed. -/
theorem agree_reconcile {strategy : Strategy σ κ κ} (balanced : strategy.Balanced true)
    (ordered : strategy.dual.Ordered) (depth : Nat) (group : String) :
    EStateM.Agree SameButDual (reconcile true depth group strategy)
      (selectAll .forward depth group
        (SortedList.ofList strategy.dual.locations : Pool κ).items strategy) := by
  have same : SameButDual strategy strategy := rfl
  have agree := agree_pairOff same ordered rfl depth group
  rw [reconcile_of_balanced depth group balanced]
  generalize ran : pairOff .dual depth group strategy.dual.remaining strategy = result at agree
  generalize ranToo : selectAll .forward depth group
    (SortedList.ofList strategy.dual.locations : Pool κ).items strategy = other at agree
  change pairOff (leftoverSide true) depth group (strategy.side (leftoverSide true)).remaining
    strategy = result at ran
  cases agree with
  | @ok placements next later kept =>
      obtain ⟨items, locations⟩ := locations_selectAll ranToo
      have each : placements.length = strategy.dual.remaining := by
        rw [← List.length_map Placement.item, items]
        exact (SortedList.items_ofList_perm _).length_eq
      have all : strategy.forward.remaining = placements.length + later.forward.remaining := by
        have whole := locations.length_eq
        rwa [List.length_append, List.length_map] at whole
      have fit : strategy.forward.remaining = strategy.dual.remaining := balanced
      have nothing : next.remainingLocations = 0 := by
        rw [remainingLocations, ← kept.forward]
        omega
      rw [EStateM.bind_of_ok ran, EStateM.get_bind_apply, nothing, if_neg (not_not_intro rfl)]
      exact .ok kept
  | error kept =>
      rw [EStateM.bind_of_error ran]
      exact .error kept

/-- A reconciliation that goes through gives all leftover dual locations as items, in order. -/
theorem items_of_reconcile {strategy next : Strategy σ κ κ} {placements : List (Placement κ κ)}
    (ordered : strategy.dual.Ordered)
    (ran : reconcile true depth group strategy = .ok placements next) :
    placements.map Placement.item =
      (SortedList.ofList strategy.dual.locations : Pool κ).items := by
  have agree := agree_reconcile (balanced_of_reconcile ran) ordered depth group
  rw [ran] at agree
  generalize ranToo : selectAll .forward depth group
    (SortedList.ofList strategy.dual.locations : Pool κ).items strategy = other at agree
  cases agree
  exact (locations_selectAll ranToo).1

end Pairing

section Alone

variable {strategy next : Strategy σ κ κ} {depth rounds : Nat} {group : String}
  {placements : List (Placement κ κ)}

/-- No item is above its own location or above the items and locations that come later. -/
structure LowestFirst (placements : List (Placement κ κ)) : Prop where
  own : ∀ placement ∈ placements, Participant.order placement.item placement.location ≠ .gt
  later : placements.Pairwise fun first second =>
    Participant.order first.item second.item ≠ .gt ∧
      Participant.order first.item second.location ≠ .gt

/-- A reconciliation that succeeds has paired off all that was left. -/
theorem pairOff_of_reconcile {hasDual : Bool}
    (ran : reconcile hasDual depth group strategy = .ok placements next) :
    pairOff (leftoverSide hasDual) depth group (strategy.side (leftoverSide hasDual)).remaining
      strategy = .ok placements next := by
  rw [reconcile_of_balanced depth group (balanced_of_reconcile ran)] at ran
  obtain ⟨paired, middle, ranPairs, continued⟩ := EStateM.bind_eq_ok_iff.1 ran
  rw [EStateM.get_bind_apply] at continued
  dsimp only at continued
  split at continued
  · cases continued
  · obtain ⟨rfl, rfl⟩ := EStateM.pure_eq_ok_iff.1 continued
    exact ranPairs

/-- Where a side is paired off within, an item is lowest of all that is left, and its location and
all later placements come from what is left. -/
theorem lowestFirst_pairOff (ordered : strategy.Ordered)
    (ran : pairOff .forward depth group rounds strategy = .ok placements next) :
    LowestFirst placements ∧ ∀ placement ∈ placements,
      placement.item ∈ strategy.forward.locations ∧
        placement.location ∈ strategy.forward.locations := by
  induction rounds generalizing strategy placements with
  | zero =>
      cases ran
      exact ⟨⟨nofun, .nil⟩, nofun⟩
  | succ rounds ih =>
      rcases pairOff_succ_eq_ok_iff.1 ran with
        ⟨_, rfl, _⟩ | ⟨item, pools, location, middle, others, taken, selected, ranRest, rfl⟩
      · exact ⟨⟨nofun, .nil⟩, nofun⟩
      · have orderedRest : (strategy.withPools .forward pools).Ordered :=
          (Stable.ordered .forward).takeLowest taken ordered
        have orderedMiddle := (keeps_selectFrom (.ordered .forward) _ _ _).ok selected orderedRest
        obtain ⟨first, among⟩ := ih orderedMiddle ranRest
        obtain ⟨_, _, _, _, _, leads, _⟩ := Side.takesLowest_of_takeLowest? ordered.forward taken
        have notAbove (other : κ) (member : other ∈ strategy.forward.locations) :
            Participant.order item other ≠ .gt :=
          Participant.order_ne_lt_iff.1 (leads other member)
        have split : strategy.forward.locations.Perm
            (item :: location :: middle.forward.locations) :=
          (Side.locations_takeLowest taken).trans ((locations_selectFrom selected).cons item)
        have itemLeft := split.mem_iff.2 List.mem_cons_self
        have locationLeft := split.mem_iff.2 (List.mem_cons_of_mem _ List.mem_cons_self)
        have stillLeft {other : κ} (member : other ∈ middle.forward.locations) :=
          split.mem_iff.2 (List.mem_cons_of_mem item (List.mem_cons_of_mem location member))
        refine ⟨⟨List.forall_mem_cons.2 ⟨notAbove _ locationLeft, first.own⟩,
          List.pairwise_cons.2 ⟨fun other member => ?_, first.later⟩⟩,
          List.forall_mem_cons.2 ⟨⟨itemLeft, locationLeft⟩, fun other member => ?_⟩⟩
        · obtain ⟨itemAmong, locationAmong⟩ := among other member
          exact ⟨notAbove _ (stillLeft itemAmong), notAbove _ (stillLeft locationAmong)⟩
        · obtain ⟨itemAmong, locationAmong⟩ := among other member
          exact ⟨stillLeft itemAmong, stillLeft locationAmong⟩

end Alone

end Strategy

namespace Request

variable {σ ι μ : Type} [Participant ι] [Participant μ] {strategy : Strategy σ ι μ}

/-- Every request leaves the pools in order, also one that fails. -/
theorem ordered_leaves (ordered : strategy.Ordered) (request : Request ι μ) :
    (request.leaves strategy).Ordered := by
  cases request with
  | place sphere => exact Strategy.keeps_placeSphere (.ordered .forward) sphere strategy ordered
  | select depth group item =>
      exact Strategy.keeps_selectFrom (.ordered .forward) depth group item strategy ordered
  | couple sphere dualSphere =>
      exact Strategy.keeps_placeCoupled (.ordered .forward) (.ordered .dual) sphere dualSphere
        strategy ordered
  | reset => exact Strategy.ordered_reset strategy

/-- A run of requests keeps the pools in order. -/
theorem ordered_leavesAll (ordered : strategy.Ordered) (requests : List (Request ι μ)) :
    (leavesAll requests strategy).Ordered := by
  induction requests generalizing strategy with
  | nil => exact ordered
  | cons request rest ih => exact ih (ordered_leaves ordered request)

end Request

namespace Strategy

variable {σ κ : Type} [Participant κ]

/-- What both sides keep, the spheres of a call keep. -/
theorem Call.keeps_placeOwn {keep : Strategy σ κ κ → Prop} (forward : Stable .forward keep)
    (dual : Stable .dual keep) (call : Call κ) : EStateM.Keeps call.placeOwn keep := by
  obtain ⟨sphere, dualSphere⟩ := call
  refine (keeps_placeSphere forward sphere).bind fun placements => ?_
  cases dualSphere with
  | none => exact (EStateM.keeps_pure []).bind fun others => EStateM.keeps_pure _
  | some dualSphere =>
      exact (keeps_placeSphere dual dualSphere).bind fun others => EStateM.keeps_pure _

/-- Leftovers come in order. Of pools that are in order something is taken unless all are empty: one
that nothing comes before, from the oldest pool with such a one, and the pools stay in order. So
after any requests a final call with a dual sphere that finds locations for its own items goes on,
where the numbers fit, as if the leftover dual locations were the items of a sphere that lists them
in a stable sort; when it succeeds these are its further items. In a group that is its own dual no
further item is above anything that was left with it. -/
theorem leftovers_in_order :
    (∀ pools : List (Pool κ), (∀ pool ∈ pools, pool.Ascending) →
      (Side.takeLowest? pools = none ↔ ∀ pool ∈ pools, pool.items = []) ∧
      ∀ lowest rest,
        (Side.takeLowest? pools = some (lowest, rest) ↔ Side.TakesLowest pools lowest rest) ∧
        (Side.TakesLowest pools lowest rest → ∀ pool ∈ rest, pool.Ascending)) ∧
    ∀ (strategy : Strategy σ κ κ) (requests : List (Request κ κ)) (call : Call κ)
      (own : List (Placement κ κ)) (before : Strategy σ κ κ),
      call.sphere.isFinal →
      call.placeOwn (Request.leavesAll requests strategy.reset) = .ok own before →
      (call.dual.isSome → ∃ items, StableSort Participant.order before.dual.locations items ∧
        (before.Balanced true →
          EStateM.answer (call.place (Request.leavesAll requests strategy.reset)) =
            (EStateM.answer (selectAll .forward call.sphere.depth call.sphere.group items
              before)).map (own ++ ·)) ∧
        ∀ placements next,
          call.place (Request.leavesAll requests strategy.reset) = .ok placements next →
          placements.map Placement.item = own.map Placement.item ++ items) ∧
      (call.dual.isSome = false → ∀ placements next,
        call.place (Request.leavesAll requests strategy.reset) = .ok placements next →
        ∃ leftover, placements = own ++ leftover ∧ LowestFirst leftover) := by
  refine ⟨fun pools ascending => ⟨?_, fun lowest rest => ⟨?_, fun takes => ?_⟩⟩, ?_⟩
  · rw [Side.takeLowest?_eq_none_iff, List.flatMap_eq_nil_iff]
  · exact Side.takeLowest?_eq_some_iff ascending
  · exact takes.ascending ascending
  · intro strategy requests call own before isFinal placed
    have orderedStart := Request.ordered_leavesAll (ordered_reset strategy) requests
    have ordered : before.Ordered :=
      (call.keeps_placeOwn (.ordered .forward) (.ordered .dual)).ok placed orderedStart
    rw [place_of_placeOwn placed isFinal]
    constructor
    · intro hasDual
      rw [hasDual]
      have answered (balanced : before.Balanced true) :=
        (agree_reconcile balanced ordered.dual call.sphere.depth call.sphere.group).answer_eq
      refine ⟨_, SortedList.stableSort_ofList before.dual.locations, fun balanced => ?_,
        fun placements next ran => ?_⟩
      · rw [EStateM.answer_bind_pure, answered balanced]
      · obtain ⟨leftover, last, reconciled, returned⟩ := EStateM.bind_eq_ok_iff.1 ran
        obtain ⟨rfl, rfl⟩ := EStateM.pure_eq_ok_iff.1 returned
        rw [List.map_append, items_of_reconcile ordered.dual reconciled]
    · intro alone placements next ran
      rw [alone] at ran
      obtain ⟨leftover, last, reconciled, returned⟩ := EStateM.bind_eq_ok_iff.1 ran
      obtain ⟨rfl, rfl⟩ := EStateM.pure_eq_ok_iff.1 returned
      exact ⟨leftover, rfl, (lowestFirst_pairOff ordered (pairOff_of_reconcile reconciled)).1⟩

/-- A gate on the left that is opened with one on the right. -/
def ajar : List (Request WorldTransition WorldTransition) :=
  [.couple ⟨0, "Left", [], [gate "L1"], false⟩ (some ⟨0, "Right", [], [gate "R2"], false⟩)]

/-- One more gate on each side, and nothing to place. -/
def parting : Call WorldTransition where
  sphere := ⟨1, "Left", [], [gate "L2"], true⟩
  dual := some ⟨1, "Right", [], [gate "R1"], true⟩

/-- The gate on the right that was opened last comes first. -/
theorem leftovers_in_order_gates :
    Side.TakesLowest [⟨[gate "R1"]⟩, ⟨[gate "R1", gate "R2"]⟩] (gate "R1")
        [⟨[]⟩, ⟨[gate "R1", gate "R2"]⟩] ∧
      ∃ (before : Strategy Unit WorldTransition WorldTransition), ∃ placements next,
        StableSort Participant.order before.dual.locations [gate "R1", gate "R2"] ∧
        parting.place (Request.leavesAll ajar unplaced.reset) = .ok placements next ∧
        placements.map Placement.item = [gate "R1", gate "R2"] := by
  obtain ⟨taking, reconciling⟩ := @leftovers_in_order Unit WorldTransition _
  let pools : List (Pool WorldTransition) := [⟨[gate "R1"]⟩, ⟨[gate "R1", gate "R2"]⟩]
  have ascending : ∀ pool ∈ pools, pool.Ascending := by
    unfold SortedList.Ascending
    decide
  refine ⟨((taking pools ascending).2 _ _).1.1 rfl, ?_⟩
  let start := Request.leavesAll ajar unplaced.reset
  have placed : parting.placeOwn start = .ok [] (EStateM.ending parting.placeOwn start) := rfl
  have sorted : (SortedList.ofList (EStateM.ending parting.placeOwn start).dual.locations :
      Pool WorldTransition).items = [gate "R1", gate "R2"] := by cbv
  obtain ⟨items, sorts, _, further⟩ := (reconciling unplaced ajar parting _ _ rfl placed).1 rfl
  have same := sorts.unique (SortedList.stableSort_ofList _)
  rw [sorted] at same
  subst same
  have ran : parting.place start = .ok [⟨gate "R1", gate "L1"⟩, ⟨gate "R2", gate "L2"⟩]
      (EStateM.ending parting.place start) := by
    cbv
  exact ⟨_, _, _, sorts, ran, further _ _ ran⟩

end Strategy

end Randomizer
