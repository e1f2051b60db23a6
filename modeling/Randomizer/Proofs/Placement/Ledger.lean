import Mathlib
import Randomizer.Proofs.Placement.Preference

namespace Randomizer

namespace Constraint

variable {σ ι μ : Type}

/-- The hook never fails. -/
def Lenient (constraint : Constraint σ ι μ) : Prop :=
  ∀ item location memory, ∃ later, constraint.onViolated item location memory = .ok () later

/-- Lenient hooks run without an error. -/
theorem Runs.exists_ok {constraints : List (Constraint σ ι μ)} {item : ι} {location : μ}
    {memory : σ} {answer : EStateM.Result Error σ Unit}
    (runs : Runs item location constraints memory answer)
    (lenient : ∀ constraint ∈ constraints, constraint.Lenient) :
    ∃ later, answer = .ok () later := by
  induction runs with
  | done memory => exact ⟨memory, rfl⟩
  | accepts _ _ ih => exact ih fun other member => lenient other (List.mem_cons_of_mem _ member)
  | fails failed =>
      obtain ⟨later, accepted⟩ := lenient _ (List.mem_cons_self ..) item location _
      rw [accepted] at failed
      cases failed

/-- Lenient constraints reject no location. -/
theorem exists_reject {constraints : List (Constraint σ ι μ)}
    (lenient : ∀ constraint ∈ constraints, constraint.Lenient) (item : ι) (location : μ)
    (memory : σ) : ∃ later, reject constraints item location memory = .ok () later :=
  (runs_reject constraints item location memory).exists_ok fun constraint member =>
    lenient constraint ((List.mem_filter.1 member).1)

end Constraint

namespace Strategy

variable {σ ι μ : Type} [Participant ι] [Participant μ] {direction : Direction} {depth : Nat}
  {group : String} {items : List ι} {strategy next : Strategy σ ι μ}

/-- The locations that items take one after another, up to the first item that gets none. -/
def taken (direction : Direction) (depth : Nat) (group : String) :
    List ι → Strategy σ ι μ → List μ
  | [], _ => []
  | item :: rest, strategy =>
    match selectFrom direction depth group item strategy with
    | .ok location next => location :: taken direction depth group rest next
    | .error _ _ => []

/-- The placements are at the locations that are taken. -/
theorem map_location_of_selectAll {placements : List (Placement ι μ)}
    (selected : selectAll direction depth group items strategy = .ok placements next) :
    placements.map Placement.location = taken direction depth group items strategy := by
  induction items generalizing strategy placements with
  | nil =>
      cases selected
      rfl
  | cons item rest ih =>
      rw [selectAll_cons] at selected
      obtain ⟨location, middle, selectedFirst, continued⟩ := EStateM.bind_eq_ok_iff.1 selected
      obtain ⟨others, last, selectedRest, collected⟩ := EStateM.bind_eq_ok_iff.1 continued
      cases collected
      rw [taken, selectedFirst, List.map_cons, ih selectedRest]

/-- A failure is that of one item, after all items before it have taken their locations. -/
theorem exists_of_selectAll_error {error : Error}
    (failed : selectAll direction depth group items strategy = .error error next) :
    ∃ before item after placements middle, items = before ++ item :: after ∧
      selectAll direction depth group before strategy = .ok placements middle ∧
      selectFrom direction depth group item middle = .error error next ∧
      taken direction depth group items strategy = placements.map Placement.location := by
  induction items generalizing strategy with
  | nil => cases failed
  | cons item rest ih =>
      rw [selectAll_cons] at failed
      rcases EStateM.bind_eq_error_iff.1 failed with
        failedFirst | ⟨location, middle, selected, later⟩
      · refine ⟨[], item, rest, [], strategy, rfl, rfl, failedFirst, ?_⟩
        rw [taken, failedFirst]
        rfl
      · rcases EStateM.bind_eq_error_iff.1 later with failedRest | ⟨others, last, _, ⟨⟩⟩
        obtain ⟨before, other, after, placements, final, rfl, selectedBefore, failedOther, same⟩ :=
          ih failedRest
        refine ⟨item :: before, other, after, ⟨item, location⟩ :: placements, final, rfl, ?_,
          failedOther, ?_⟩
        · rw [selectAll_cons, EStateM.bind_of_ok selected, EStateM.bind_of_ok selectedBefore]
          rfl
        · rw [taken, selected, List.map_cons, ← same]

/-- A selection completes no sphere. -/
theorem keeps_means_selectFrom (direction : Direction) (depth : Nat) (group : String) (item : ι)
    (means : SortedList Binary32 Binary32.compareTotal) :
    EStateM.Keeps (selectFrom direction depth group item)
      fun strategy : Strategy σ ι μ => (strategy.side direction).means = means := by
  intro strategy kept
  unfold EStateM.ending
  cases ran : selectFrom direction depth group item strategy with
  | ok location next => exact (losesOnly_of_selectFrom ran).1.trans kept
  | error error next =>
      rw [← kept]
      exact congrArg Side.means (side_of_selectFrom_error ran direction)

/-- What items do that do not all get a location: those before the first that gets none take one
each, and the spheres that were completed stay the same. -/
structure Stops (direction : Direction) (depth : Nat) (group : String) (items : List ι)
    (strategy next : Strategy σ ι μ) : Prop where
  locations : (strategy.side direction).locations.Perm
    (taken direction depth group items strategy ++ (next.side direction).locations)
  means : (next.side direction).means = (strategy.side direction).means

/-- A run over items that fails stops at the first item without a location. -/
theorem stops_of_selectAll {error : Error}
    (failed : selectAll direction depth group items strategy = .error error next) :
    Stops direction depth group items strategy next := by
  obtain ⟨before, item, after, placements, middle, rfl, selected, failedItem, same⟩ :=
    exists_of_selectAll_error failed
  obtain ⟨_, fewer⟩ := locations_selectAll selected
  have means : (middle.side direction).means = (strategy.side direction).means :=
    (keeps_selectAll (fun item => keeps_means_selectFrom direction depth group item _) before).ok
      selected rfl
  have unchanged := side_of_selectFrom_error failedItem direction
  rw [← unchanged] at fewer means
  rw [← same] at fewer
  exact ⟨fewer, means⟩

/-- With hooks that never fail, an item that gets no location is the first beyond those that are
free, and nothing is left for it. -/
theorem exhausted_of_selectAll {error : Error}
    (lenient : ∀ constraint ∈ strategy.constraints, constraint.Lenient)
    (failed : selectAll direction depth group items strategy = .error error next) :
    ∃ item, items[(strategy.side direction).remaining]? = some item ∧
      error = .exhausted group (Participant.name item) ∧
      (next.side direction).locations = [] := by
  obtain ⟨before, item, after, placements, middle, rfl, selected, failedItem, same⟩ :=
    exists_of_selectAll_error failed
  obtain ⟨sameItems, fewer⟩ := locations_selectAll selected
  have constraints : middle.constraints = strategy.constraints :=
    (keeps_selectAll (keeps_selectFrom (.constraints direction _) depth group) before).ok
      selected rfl
  have nothing : (middle.side direction).locations = [] := by
    by_cases nothing : (middle.side direction).locations = []
    · exact nothing
    · obtain ⟨location, last, succeeded⟩ := exists_selectFrom direction depth group item
        (mt List.length_eq_zero_iff.1 nothing) fun best _ => by
          rw [constraints]
          exact Constraint.exists_reject lenient item best.location middle.memory
      rw [succeeded] at failedItem
      cases failedItem
  have position : (strategy.side direction).remaining = before.length := by
    rw [nothing, List.append_nil] at fewer
    rw [Side.remaining, fewer.length_eq, ← sameItems, List.length_map, List.length_map]
  obtain ⟨last, isExhausted, _⟩ := selectFrom_of_none middle item depth direction group nothing
  have unchanged := side_of_selectFrom_error failedItem direction
  rw [isExhausted] at failedItem
  cases failedItem
  refine ⟨item, ?_, rfl, ?_⟩
  · rw [position, List.getElem?_append_right (Nat.le_refl _), Nat.sub_self, List.getElem?_cons_zero]
  · rw [unchanged, nothing]

/-- A sphere is not placed just when its items do not all get locations. -/
theorem selectAll_of_placeSphere_error {sphere : Sphere ι μ} {error : Error}
    (failed : placeSphere direction sphere strategy = .error error next) :
    selectAll direction sphere.depth sphere.group sphere.items strategy = .error error next := by
  rcases EStateM.bind_eq_error_iff.1 failed with failedItems | ⟨placements, middle, _, later⟩
  · exact failedItems
  · rcases EStateM.bind_eq_error_iff.1 later with ⟨⟨⟩⟩ | ⟨_, _, _, ⟨⟩⟩

/-- A sphere that succeeds has selected for all its items. -/
theorem selectAll_of_placeSphere {sphere : Sphere ι μ} {placements : List (Placement ι μ)}
    (ran : placeSphere direction sphere strategy = .ok placements next) :
    ∃ middle, selectAll direction sphere.depth sphere.group sphere.items strategy =
      .ok placements middle := by
  obtain ⟨selected, middle, ranItems, continued⟩ := EStateM.bind_eq_ok_iff.1 ran
  obtain ⟨_, after, _, built⟩ := EStateM.bind_eq_ok_iff.1 continued
  cases built
  exact ⟨middle, ranItems⟩

end Strategy

/-- A call on a strategy: a sphere to be placed, or an item that a location is wanted for. -/
inductive Call (ι μ : Type) where
  | place (sphere : Sphere ι μ)
  | select (depth : Nat) (group : String) (item : ι)

namespace Call

variable {σ ι μ : Type} [Participant ι] [Participant μ]

/-- The strategy after a call, also after one that fails. -/
def leaves (strategy : Strategy σ ι μ) : Call ι μ → Strategy σ ι μ
  | place sphere => EStateM.ending (Strategy.place sphere) strategy
  | select depth group item => EStateM.ending (Strategy.select depth group item) strategy

/-- The locations that a call opens, which only placing a sphere does. -/
def opened (strategy : Strategy σ ι μ) : Call ι μ → List μ
  | place sphere =>
    match Strategy.place sphere strategy with
    | .ok _ _ => sphere.locations
    | .error _ _ => []
  | select _ _ _ => []

/-- The locations that a call consumes, also when it fails. -/
def consumed (strategy : Strategy σ ι μ) : Call ι μ → List μ
  | place sphere => Strategy.taken .forward sphere.depth sphere.group sphere.items strategy
  | select depth group item => Strategy.taken .forward depth group [item] strategy

/-- One call moves locations from the free ones to the consumed ones, and adds those it opens. -/
theorem perm_leaves (call : Call ι μ) (strategy : Strategy σ ι μ) :
    (strategy.forward.locations ++ call.opened strategy).Perm
      (call.consumed strategy ++ (call.leaves strategy).forward.locations) := by
  cases call with
  | place sphere =>
      rw [opened, consumed, leaves, EStateM.ending]
      cases ran : Strategy.place sphere strategy with
      | ok placements next =>
          obtain ⟨middle, selected⟩ := Strategy.selectAll_of_placeSphere ran
          rw [← Strategy.map_location_of_selectAll selected]
          exact (Strategy.placed_placeSphere ran).locations
      | error error next =>
          have stops := Strategy.stops_of_selectAll (Strategy.selectAll_of_placeSphere_error ran)
          rw [List.append_nil]
          exact stops.locations
  | select depth group item =>
      rw [opened, consumed, leaves, EStateM.ending, List.append_nil, Strategy.select]
      cases ran : Strategy.selectFrom .forward depth group item strategy with
      | ok location next =>
          rw [Strategy.taken, ran]
          exact Strategy.locations_selectFrom ran
      | error error next =>
          rw [Strategy.taken, ran]
          have unchanged : next.forward = strategy.forward :=
            Strategy.side_of_selectFrom_error ran .forward
          dsimp only
          rw [unchanged]
          exact List.Perm.refl _

/-- A call leaves the constraints. -/
theorem constraints_leaves (call : Call ι μ) (strategy : Strategy σ ι μ) :
    (call.leaves strategy).constraints = strategy.constraints := by
  have stable := Strategy.Stable.constraints (μ := μ) .forward strategy.constraints
  cases call with
  | place sphere => exact Strategy.keeps_placeSphere stable sphere strategy rfl
  | select depth group item => exact Strategy.keeps_selectFrom stable depth group item strategy rfl

end Call

namespace Strategy

variable {σ ι μ : Type} [Participant ι] [Participant μ]

/-- The strategy after a run of calls. -/
def after (strategy : Strategy σ ι μ) (calls : List (Call ι μ)) : Strategy σ ι μ :=
  calls.foldl Call.leaves strategy

/-- The locations that a run of calls opens, as often as they come. -/
def openedBy (strategy : Strategy σ ι μ) : List (Call ι μ) → List μ
  | [] => []
  | call :: rest => call.opened strategy ++ openedBy (call.leaves strategy) rest

/-- The locations that a run of calls consumes, as often as it takes them. -/
def consumedBy (strategy : Strategy σ ι μ) : List (Call ι μ) → List μ
  | [] => []
  | call :: rest => call.consumed strategy ++ consumedBy (call.leaves strategy) rest

/-- Over a run, what was there and what opens is consumed or stays free. -/
theorem perm_after (strategy : Strategy σ ι μ) (calls : List (Call ι μ)) :
    (strategy.forward.locations ++ strategy.openedBy calls).Perm
      (strategy.consumedBy calls ++ (strategy.after calls).forward.locations) := by
  induction calls generalizing strategy with
  | nil =>
      rw [openedBy, List.append_nil]
      exact List.Perm.refl _
  | cons call rest ih =>
      have step := (call.perm_leaves strategy).append_right ((call.leaves strategy).openedBy rest)
      have run := (ih (call.leaves strategy)).append_left (call.consumed strategy)
      rw [List.append_assoc, List.append_assoc] at step
      rw [openedBy, consumedBy, List.append_assoc]
      exact step.trans run

/-- A run leaves the constraints. -/
theorem constraints_after (strategy : Strategy σ ι μ) (calls : List (Call ι μ)) :
    (strategy.after calls).constraints = strategy.constraints := by
  induction calls generalizing strategy with
  | nil => rfl
  | cons call rest ih => exact (ih (call.leaves strategy)).trans (call.constraints_leaves strategy)

/-- What placing a sphere does to the books when the given locations have been opened. -/
structure Settles (opened : List μ) (strategy : Strategy σ ι μ) (sphere : Sphere ι μ) : Prop where
  succeeds_iff : (∃ placements next, place sphere strategy = .ok placements next) ↔
    sphere.items.length ≤ strategy.remainingLocations
  placed : ∀ placements next, place sphere strategy = .ok placements next →
    placements.map Placement.item = sphere.items ∧
    placements.map Placement.location = (Call.place sphere).consumed strategy ∧
    (∀ placement ∈ placements, placement.location ∈ opened) ∧
    next.remainingLocations =
      strategy.remainingLocations - sphere.items.length + sphere.locations.length
  stopped : ∀ error next, place sphere strategy = .error error next →
    ∃ item, sphere.items[strategy.remainingLocations]? = some item ∧
      error = .exhausted sphere.group (Participant.name item) ∧
      ((Call.place sphere).consumed strategy).length = strategy.remainingLocations ∧
      strategy.forward.locations.Perm ((Call.place sphere).consumed strategy) ∧
      next.forward.locations = [] ∧ next.forward.means = strategy.forward.means

/-- A sphere that succeeds has had a free location for each item. -/
theorem length_le_of_place {strategy next : Strategy σ ι μ} {sphere : Sphere ι μ}
    {placements : List (Placement ι μ)}
    (ran : place sphere strategy = .ok placements next) :
    sphere.items.length ≤ strategy.remainingLocations := by
  obtain ⟨middle, selected⟩ := selectAll_of_placeSphere ran
  obtain ⟨sameItems, fewer⟩ := locations_selectAll selected
  have counted := fewer.length_eq
  rw [List.length_append, List.length_map] at counted
  rw [← sameItems, List.length_map]
  exact Nat.le.intro counted.symm

/-- With lenient constraints a sphere is settled by the numbers alone. -/
theorem settles_of_lenient {strategy : Strategy σ ι μ}
    (lenient : ∀ constraint ∈ strategy.constraints, constraint.Lenient) {opened : List μ}
    (within : ∀ location ∈ strategy.forward.locations, location ∈ opened) (sphere : Sphere ι μ) :
    Settles opened strategy sphere where
  succeeds_iff := by
    constructor
    · rintro ⟨placements, next, ran⟩
      exact length_le_of_place ran
    · intro enough
      cases ran : place sphere strategy with
      | ok placements next => exact ⟨placements, next, rfl⟩
      | error error next =>
          obtain ⟨item, beyond, _⟩ :=
            exhausted_of_selectAll lenient (selectAll_of_placeSphere_error ran)
          obtain ⟨bound, _⟩ := List.getElem?_eq_some_iff.1 beyond
          exact absurd enough (Nat.not_le.2 bound)
  placed := by
    intro placements next ran
    obtain ⟨middle, selected⟩ := selectAll_of_placeSphere ran
    obtain ⟨items, taken, locations⟩ := placed_placeSphere ran
    refine ⟨items, map_location_of_selectAll selected, ?_, ?_⟩
    · exact fun placement member => within _ (taken placement member)
    · have counted := locations.length_eq
      have enough := length_le_of_place ran
      have sameCount := congrArg List.length items
      simp only [List.length_append, List.length_map] at counted sameCount
      change strategy.remainingLocations + sphere.locations.length =
        placements.length + next.remainingLocations at counted
      omega
  stopped := by
    intro error next failed
    have failedItems := selectAll_of_placeSphere_error failed
    obtain ⟨item, beyond, isExhausted, nothing⟩ := exhausted_of_selectAll lenient failedItems
    obtain ⟨locations, means⟩ := stops_of_selectAll failedItems
    rw [nothing, List.append_nil] at locations
    exact ⟨item, beyond, isExhausted, locations.length_eq.symm, locations, nothing, means⟩

/-- With hooks that never fail and from nothing on, whatever was called: what was opened is what was
consumed and what is free, and the next sphere is placed just when there is a free location for each
of its items. -/
theorem settles_after (strategy : Strategy σ ι μ)
    (lenient : ∀ constraint ∈ strategy.constraints, constraint.Lenient)
    (calls : List (Call ι μ)) :
    (strategy.reset.openedBy calls).Perm
        (strategy.reset.consumedBy calls ++ (strategy.reset.after calls).forward.locations) ∧
      ∀ sphere, Settles (strategy.reset.openedBy calls) (strategy.reset.after calls) sphere := by
  have balanced : (strategy.reset.openedBy calls).Perm
      (strategy.reset.consumedBy calls ++ (strategy.reset.after calls).forward.locations) :=
    strategy.reset.perm_after calls
  refine ⟨balanced, fun sphere => settles_of_lenient ?_ (fun location free => ?_) sphere⟩
  · rw [constraints_after]
    exact lenient
  · exact balanced.mem_iff.2 (List.mem_append_right _ free)

/-- A constraint that the first location violates, which nobody minds. -/
def shore : Strategy Unit WorldItem WorldLocation :=
  create .identity [⟨none, fun _ location => location.name != "cave", none⟩] ()

/-- Two locations are opened, one of them is taken, and of two items one gets no location. -/
def crossing : List (Call WorldItem WorldLocation) := [
  .place ⟨0, "world", [], [.ofDefinition ⟨"cave", []⟩, .ofDefinition ⟨"lake", []⟩], false⟩,
  .select 1 "world" (.ofItem (.empty "key")),
  .place ⟨1, "world", [.ofItem (.empty "lamp"), .ofItem (.empty "rope")], [], false⟩]

/-- At the end of the crossing nothing is free, and a boat does not fit. -/
theorem settles_after_shore :
    (shore.reset.openedBy crossing).Perm
        (shore.reset.consumedBy crossing ++ (shore.reset.after crossing).forward.locations) ∧
      ¬ ∃ placements next, place ⟨2, "world", [.ofItem (.empty "boat")], [], false⟩
        (shore.reset.after crossing) = .ok placements next := by
  have lenient : ∀ constraint ∈ shore.constraints, constraint.Lenient :=
    List.forall_mem_singleton.2 fun item location memory => ⟨memory, rfl⟩
  obtain ⟨balanced, settles⟩ := settles_after shore lenient crossing
  refine ⟨balanced, fun ran => ?_⟩
  have enough := (settles _).succeeds_iff.1 ran
  have nothing : (shore.reset.after crossing).remainingLocations = 0 := by cbv
  rw [nothing] at enough
  cases enough

end Strategy

end Randomizer
