import Randomizer.Proofs.Logic.Elementary

/-!
Waypoints and transitions while building. With a term and a clause under each of their names,
nothing can fail between the last clause and the first item. A manager has a term and a definition
under each, so that a builder that reopens it has a clause.
-/

namespace Randomizer

/-- Definitions are filed under their names, and waypoints and transitions have a term and a
definition under theirs. -/
structure Manager.Anchored (manager : Manager) : Prop where
  named : ∀ name definition, manager.definitions.get? name = some definition →
    definition.name = name
  waypoints : ∀ name waypoint, manager.waypoints.get? name = some waypoint →
    Builder.WaypointOf manager name waypoint
  transitions : ∀ name transition, manager.transitions.get? name = some transition →
    transition.name = name ∧ Builder.WaypointOf manager name ⟨transition.term, transition.logic⟩

namespace Builder

/-- With every clause compiled, waypoints and transitions have what they need. -/
theorem exists_anchors {builder : Builder} {compiled : Compiled} (anchored : builder.Anchored)
    (compiledAll : compileAll builder.scope builder.clauses.entries ⟨∅, ∅⟩ = .ok () compiled) :
    ∃ waypoints transitions,
      addWaypoints (builder.openWith compiled) builder.waypoints.entries =
        .ok { builder.openWith compiled with waypoints } ∧
      addTransitions { builder.openWith compiled with waypoints } builder.transitions.entries =
        .ok { builder.openWith compiled with waypoints, transitions } := by
  have defined := Scope.contains_of_compileAll (fun entry member =>
    NameMap.contains_iff.2 ⟨entry.2, NameMap.get?_of_mem member⟩) compiledAll
  have known (name : String)
      (anchor : builder.waypoints.contains name ∨ builder.transitions.contains name) :
      ∃ waypoint, WaypointOf (builder.openWith compiled) name waypoint := by
    obtain ⟨isTerm, hasClause⟩ := anchored name anchor
    obtain ⟨term, found⟩ := Option.ne_none_iff_exists'.1
      (mt TermTable.idOf?_eq_none_iff.1 (not_not.2 isTerm))
    obtain ⟨clause, source⟩ := NameMap.contains_iff.1 hasClause
    obtain ⟨logic, foundLogic⟩ :=
      NameMap.contains_iff.1 (defined (name, clause) (NameMap.mem_of_get? source))
    exact ⟨⟨term, logic⟩, found, foundLogic⟩
  obtain ⟨waypointed, addedWaypoints⟩ : ∃ next,
      addWaypoints (builder.openWith compiled) builder.waypoints.entries = .ok next :=
    exists_addWaypoints fun name member =>
      known name (.inl (NameMap.contains_iff_mem_keys.2 member))
  obtain ⟨waypoints, rfl, _, _⟩ := addWaypoints_ok addedWaypoints
  obtain ⟨transitioned, addedTransitions⟩ : ∃ next,
      addTransitions { builder.openWith compiled with waypoints } builder.transitions.entries =
        .ok next :=
    exists_addTransitions fun name member =>
      known name (.inr (NameMap.contains_iff_mem_keys.2 member))
  obtain ⟨transitions, rfl, _, _⟩ := addTransitions_ok addedTransitions
  exact ⟨waypoints, transitions, addedWaypoints, addedTransitions⟩

/-- With every clause compiled, only an item could still fail. -/
theorem exists_build_of_compileAll {builder : Builder} {compiled : Compiled}
    (anchored : builder.Anchored)
    (compiledAll : compileAll builder.scope builder.clauses.entries ⟨∅, ∅⟩ = .ok () compiled)
    (items : ∀ waypoints transitions, ∃ next, addItems
      { builder.openWith compiled with waypoints, transitions } builder.templates.values =
        .ok next) : ∃ manager, builder.build = .ok manager := by
  obtain ⟨waypoints, transitions, addedWaypoints, addedTransitions⟩ :=
    exists_anchors anchored compiledAll
  obtain ⟨itemed, addedItems⟩ := items waypoints transitions
  exact ⟨_, build_eq_ok_iff.2
    ⟨compiled, _, _, itemed, compiledAll, addedWaypoints, addedTransitions, addedItems, rfl⟩⟩

section Reopened

variable {manager : Manager} (anchored : manager.Anchored)

include anchored

/-- The clauses of a reopened builder are the restated definitions of the manager. -/
theorem clauses_ofManager_get? (name : String) :
    (ofManager manager).clauses.get? name =
      (manager.definitions.get? name).map manager.clauseOf :=
  NameMap.get?_ofList_values manager.clauseOf anchored.named name

/-- A reopened builder has the waypoints of its manager. -/
theorem waypoint_keys_ofManager : (ofManager manager).waypoints.keys = manager.waypoints.keys :=
  NameMap.keys_ofList_values _ fun name waypoint found =>
    anchored.named name waypoint.logic (anchored.waypoints name waypoint found).2

/-- A reopened builder has the transitions of its manager. -/
theorem transition_keys_ofManager :
    (ofManager manager).transitions.keys = manager.transitions.keys :=
  NameMap.keys_ofList_values _ fun name transition found =>
    (anchored.transitions name transition found).1

/-- The transitions of a reopened builder are those of the manager, with their logic as text. -/
theorem transitions_ofManager_get? (name : String) :
    (ofManager manager).transitions.get? name = (manager.transitions.get? name).map
      fun transition => ⟨transition.name, transition.scene, transition.gate,
        manager.textOf transition.logic, transition.passage⟩ :=
  NameMap.get?_ofList_values _ (fun name transition found =>
    (anchored.transitions name transition found).1) name

/-- What has a term and a definition gets a clause when the manager is opened again. -/
theorem anchored_ofManager : (ofManager manager).Anchored := by
  have clause {name : String} {waypoint : Waypoint} (known : WaypointOf manager name waypoint) :
      name ∈ (ofManager manager).terms.names ∧ (ofManager manager).clauses.contains name := by
    obtain ⟨isTerm, defined⟩ := known
    refine ⟨TermTable.mem_of_idOf? isTerm, NameMap.contains_iff.2 ?_⟩
    rw [clauses_ofManager_get? anchored, defined]
    exact ⟨_, rfl⟩
  intro name known
  rw [NameMap.contains_iff_mem_keys, NameMap.contains_iff_mem_keys,
    waypoint_keys_ofManager anchored, transition_keys_ofManager anchored] at known
  rcases known with isWaypoint | isTransition
  · obtain ⟨waypoint, found⟩ := NameMap.mem_keys_iff.1 isWaypoint
    exact clause (anchored.waypoints name waypoint found)
  · obtain ⟨transition, found⟩ := NameMap.mem_keys_iff.1 isTransition
    exact clause (anchored.transitions name transition found).2

end Reopened

end Builder

end Randomizer
