import Randomizer.Proofs.Progression
import Randomizer.World.Growth

namespace Randomizer

/-- What is always true persists. -/
theorem Definition.persists_always (name : String) (vars : VariableTable) :
    Progression.Persists (Definition.holds ⟨name, [-3]⟩ vars) :=
  fun _ _ _ _ _ _ => rfl

/-- A single term persists. -/
theorem Definition.persists_term (name : String) (vars : VariableTable) (index : Nat) :
    Progression.Persists (Definition.holds ⟨name, [(index : Int)]⟩ vars) := by
  intro lower upper _ _ below holds
  have value (state : Progression) :
      Definition.holds ⟨name, [(index : Int)]⟩ vars state.read =
        decide (0 < state.read ⟨index⟩) := by
    have symbol : Symbol.ofCode? (index : Int) = some (.term ⟨index⟩) :=
      Symbol.ofCode?_code (.term ⟨index⟩)
    simp [Definition.holds, Definition.value, Program.value, Program.run, Program.step, symbol,
      VariableTable.inputs]
  rw [value, decide_eq_true_eq] at holds ⊢
  exact Int.lt_of_lt_of_le holds (below ⟨index⟩)

namespace Manager

variable {manager : Manager} {progression upper : Progression} {term : TermId}

/-- A term that some waypoint sets. -/
def Owns (manager : Manager) (term : TermId) : Prop :=
  ∃ waypoint ∈ manager.waypoints.values, waypoint.term = term

/-- No waypoint that is not held satisfies its logic. -/
def Settled (manager : Manager) (progression : Progression) : Prop :=
  manager.readyWaypoints progression = []

/-- A term reads one if it is that of a waypoint that is set, or else as before. -/
theorem read_setAll (waypoints : List Waypoint) (progression : Progression) (term : TermId) :
    (setAll waypoints progression).read term =
      if term ∈ waypoints.map Waypoint.term then 1 else progression.read term := by
  unfold setAll
  induction waypoints generalizing progression with
  | nil => rfl
  | cons waypoint rest ih =>
      rw [List.foldl_cons, ih, Progression.read_set, List.map_cons]
      by_cases later : term ∈ rest.map Waypoint.term
      · rw [if_pos later, if_pos (List.mem_cons_of_mem _ later)]
      · simp only [List.mem_cons, later, or_false]
        rfl

/-- A waypoint is ready if it is not held and its logic holds. -/
theorem mem_readyWaypoints {waypoint : Waypoint} :
    waypoint ∈ manager.readyWaypoints progression ↔
      waypoint ∈ manager.waypoints.values ∧ progression.read waypoint.term ≤ 0 ∧
        waypoint.logic.holds manager.vars progression.read := by
  simp [readyWaypoints, Progression.holds, List.mem_filter]

/-- A settled state stays as it is. -/
theorem settle_of_settled (settled : manager.Settled progression) :
    manager.settle progression = progression := by
  rw [settle]
  exact if_pos settled

/-- What is settled is settled. -/
theorem settled_settle (manager : Manager) (progression : Progression) :
    manager.Settled (manager.settle progression) := by
  induction progression using settle.induct manager with
  | case1 progression none =>
      rw [settle, if_pos none]
      exact none
  | case2 progression some ih =>
      rw [settle, if_neg some]
      exact ih

/-- A term keeps its value, or it is set for a waypoint that was not held. -/
theorem read_settle (manager : Manager) (progression : Progression) (term : TermId) :
    (manager.settle progression).read term = progression.read term ∨
      manager.Owns term ∧ progression.read term ≤ 0 ∧
        (manager.settle progression).read term = 1 := by
  induction progression using settle.induct manager with
  | case1 progression none =>
      rw [settle, if_pos none]
      exact .inl rfl
  | case2 progression some ih =>
      rw [settle, if_neg some]
      rw [read_setAll] at ih
      split at ih
      next ready =>
        obtain ⟨waypoint, among, rfl⟩ := List.mem_map.1 ready
        obtain ⟨member, open', _⟩ := mem_readyWaypoints.1 among
        have isOne : (manager.settle (setAll (manager.readyWaypoints progression)
            progression)).read waypoint.term = 1 := by
          rcases ih with kept | ⟨_, absurd, _⟩
          · exact kept
          · omega
        exact .inr ⟨⟨waypoint, member, rfl⟩, open', isOne⟩
      · exact ih

/-- Settling only adds to a state. -/
theorem le_settle (manager : Manager) (progression : Progression) :
    progression ≤ manager.settle progression := by
  intro term
  rcases read_settle manager progression term with kept | ⟨_, low, set⟩ <;> omega

/-- Settling leaves terms that no waypoint has. -/
theorem read_settle_of_not_owns (free : ¬manager.Owns term) :
    (manager.settle progression).read term = progression.read term := by
  rcases read_settle manager progression term with kept | ⟨owns, _⟩
  · exact kept
  · exact absurd owns free

/-- Settling leaves no term above one that was not above it. -/
theorem read_settle_le_one (low : progression.read term ≤ 1) :
    (manager.settle progression).read term ≤ 1 := by
  rcases read_settle manager progression term with kept | ⟨_, _, set⟩ <;> omega

/-- Setting waypoints keeps a state in range. -/
theorem inRange_setAll (waypoints : List Waypoint) (inRange : progression.InRange) :
    (setAll waypoints progression).InRange := by
  intro term
  rw [read_setAll]
  split
  · decide
  · exact inRange term

/-- Settling keeps a state in range. -/
theorem inRange_settle (inRange : progression.InRange) :
    (manager.settle progression).InRange := by
  intro term
  rcases read_settle manager progression term with kept | ⟨_, _, set⟩
  · rw [kept]
    exact inRange term
  · rw [set]
    decide

section Below

variable (persists : ∀ waypoint ∈ manager.waypoints.values,
    Progression.Persists (waypoint.logic.holds manager.vars))
  (upperInRange : upper.InRange) (settled : manager.Settled upper)
include persists upperInRange settled

/-- Setting some of the ready waypoints never passes a settled progression above. -/
theorem setAll_le {waypoints : List Waypoint}
    (ready : ∀ waypoint ∈ waypoints, waypoint ∈ manager.readyWaypoints progression)
    (inRange : progression.InRange) (below : progression ≤ upper) :
    setAll waypoints progression ≤ upper := by
  intro term
  rw [read_setAll]
  split
  next set =>
    obtain ⟨waypoint, among, rfl⟩ := List.mem_map.1 set
    obtain ⟨member, _, holds⟩ := mem_readyWaypoints.1 (ready waypoint among)
    have above := persists waypoint member progression upper inRange upperInRange below holds
    have notReady : waypoint ∉ manager.readyWaypoints upper := by
      rw [settled]
      exact List.not_mem_nil
    have held : ¬upper.read waypoint.term ≤ 0 := fun low =>
      notReady (mem_readyWaypoints.2 ⟨member, low, above⟩)
    omega
  · exact below term

/-- Settling never passes a settled progression above its start. -/
theorem settle_le (inRange : progression.InRange) (below : progression ≤ upper) :
    manager.settle progression ≤ upper := by
  induction progression using settle.induct manager with
  | case1 progression none =>
      rw [settle, if_pos none]
      exact below
  | case2 progression some ih =>
      rw [settle, if_neg some]
      apply ih
      · exact inRange_setAll _ inRange
      · exact setAll_le persists upperInRange settled (fun _ ready => ready) inRange below

end Below

end Manager

end Randomizer
