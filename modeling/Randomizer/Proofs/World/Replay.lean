import Randomizer.Proofs.Outcome
import Randomizer.World.Growth

namespace Randomizer

namespace Manager

/-- An item granted and the waypoints settled after it, unless the grant overflows. -/
def play (manager : Manager) (item : Item) (state : Progression) : Except Overflow Progression :=
  match item.grant manager.vars state with
  | .ok _ granted => .ok (manager.settle granted)
  | .error overflow _ => .error overflow

/-- A play grants an item and settles the waypoints. -/
theorem play_eq_ok_iff {manager : Manager} {item : Item} {state next : Progression} :
    manager.play item state = .ok next ↔
      ∃ granted, item.grant manager.vars state = .ok () granted ∧
        manager.settle granted = next := by
  unfold play
  cases item.grant manager.vars state <;> simp

/-- The states that items played in order go through, from the start to the end. -/
def replay (manager : Manager) (start : Progression) :
    List Item → Except Overflow (List Progression)
  | [] => .ok [start]
  | item :: rest => do
    let next ← manager.play item start
    let states ← manager.replay next rest
    return start :: states

/-- A replay is a play of the first item and a replay of the rest. -/
theorem replay_cons_eq_ok_iff {manager : Manager} {start : Progression} {item : Item}
    {rest : List Item} {states : List Progression} :
    manager.replay start (item :: rest) = .ok states ↔
      ∃ next others, manager.play item start = .ok next ∧ manager.replay next rest = .ok others ∧
        states = start :: others := by
  simp only [replay, Except.bind_eq_ok_iff]
  constructor
  · rintro ⟨next, played, others, replayed, built⟩
    cases built
    exact ⟨next, others, played, replayed, rfl⟩
  · rintro ⟨next, others, played, replayed, rfl⟩
    exact ⟨next, played, others, replayed, rfl⟩

/-- A replay has a state before the items and one after each. -/
theorem length_of_replay {manager : Manager} {start : Progression} {items : List Item}
    {states : List Progression} (replayed : manager.replay start items = .ok states) :
    states.length = items.length + 1 := by
  induction items generalizing start states with
  | nil =>
      cases replayed
      rfl
  | cons item rest ih =>
      obtain ⟨next, others, _, later, rfl⟩ := replay_cons_eq_ok_iff.1 replayed
      rw [List.length_cons, ih later, List.length_cons]

end Manager

namespace WorldLocation

/-- What decides whether a location is open: its logic and its costs. -/
def access (location : WorldLocation) : Definition × List Cost := (location.logic, location.costs)

/-- Locations with the same access have the same name. -/
theorem name_eq_of_access {first second : WorldLocation} (same : first.access = second.access) :
    first.name = second.name :=
  congrArg Definition.name (Prod.mk.inj same).1

/-- Locations with the same access are open alike. -/
theorem isOpen_eq_of_access {first second : WorldLocation} (same : first.access = second.access)
    (vars : VariableTable) (reading : Reading) :
    first.isOpen vars reading = second.isOpen vars reading := by
  obtain ⟨sameLogic, sameCosts⟩ := Prod.mk.inj same
  rw [isOpen, isOpen, sameLogic, sameCosts]

/-- The state with the given number is the first of several at which a location is open. -/
def OpensAt (location : WorldLocation) (vars : VariableTable) (states : List Progression)
    (number : Nat) : Prop :=
  (∃ state, states[number]? = some state ∧ location.isOpen vars state.read) ∧
    ∀ earlier < number, ∀ state, states[earlier]? = some state →
      location.isOpen vars state.read = false

/-- No state is one at which a location is open. -/
def neverOpens (location : WorldLocation) (vars : VariableTable) (states : List Progression) :
    Bool :=
  states.all fun state => !location.isOpen vars state.read

section OpensAt

variable {location other : WorldLocation} {vars : VariableTable} {state : Progression}
  {states : List Progression} {number : Nat}

/-- Locations with the same access open at the same number. -/
theorem OpensAt.of_access (opens : location.OpensAt vars states number)
    (same : location.access = other.access) : other.OpensAt vars states number := by
  obtain ⟨⟨state, found, isOpen⟩, before⟩ := opens
  refine ⟨⟨state, found, ?_⟩, fun earlier less state found => ?_⟩
  · rwa [← isOpen_eq_of_access same]
  · rw [← isOpen_eq_of_access same]
    exact before earlier less state found

/-- A location opens at the first state just if it is open there. -/
theorem opensAt_zero_iff :
    location.OpensAt vars (state :: states) 0 ↔ location.isOpen vars state.read := by
  constructor
  · rintro ⟨⟨_, ⟨⟩, isOpen⟩, -⟩
    exact isOpen
  · exact fun isOpen => ⟨⟨state, rfl, isOpen⟩, fun earlier less => absurd less (by omega)⟩

/-- A location opens at a later state just if it is shut before. -/
theorem opensAt_succ_iff :
    location.OpensAt vars (state :: states) (number + 1) ↔
      location.isOpen vars state.read = false ∧ location.OpensAt vars states number := by
  constructor
  · rintro ⟨isOpen, before⟩
    refine ⟨before 0 (by omega) state rfl, isOpen, fun earlier less => ?_⟩
    exact before (earlier + 1) (by omega)
  · rintro ⟨shut, isOpen, before⟩
    refine ⟨isOpen, fun earlier less other found => ?_⟩
    cases earlier with
    | zero =>
        cases found
        exact shut
    | succ earlier => exact before earlier (by omega) other found

/-- Locations that are closed at the first state open one state later. -/
theorem exists_opensAt_succ_iff {locations : List WorldLocation}
    (shut : ∀ location ∈ locations, location.isOpen vars state.read = false) :
    (∃ location ∈ locations, location.OpensAt vars (state :: states) (number + 1)) ↔
      ∃ location ∈ locations, location.OpensAt vars states number := by
  constructor
  · rintro ⟨location, member, opens⟩
    exact ⟨location, member, (opensAt_succ_iff.1 opens).2⟩
  · rintro ⟨location, member, opens⟩
    exact ⟨location, member, opensAt_succ_iff.2 ⟨shut location member, opens⟩⟩

/-- A location never opens just if no state opens it. -/
theorem neverOpens_cons :
    location.neverOpens vars (state :: states) =
      (!location.isOpen vars state.read && location.neverOpens vars states) := rfl

/-- Locations that are shut in the first state never open just if they do not later. -/
theorem filter_neverOpens_cons {locations : List WorldLocation}
    (shut : ∀ location ∈ locations, location.isOpen vars state.read = false) :
    locations.filter (·.neverOpens vars (state :: states)) =
      locations.filter (·.neverOpens vars states) := by
  apply List.filter_congr
  intro location member
  rw [neverOpens_cons, shut location member, Bool.not_false, Bool.true_and]

end OpensAt

end WorldLocation

end Randomizer
