import Randomizer.Proofs.Logic.Anchoring
import Randomizer.Proofs.Session

namespace Randomizer

open Randomizer.EStateM

namespace TransitionRecord

/-- Every transition has a full name. -/
theorem fullName_ne_empty (record : TransitionRecord) : record.fullName ≠ "" := by
  unfold fullName
  split
  · intro none
    have size := congrArg String.length none
    simp [String.length_append] at size
  next some => exact fun none => some (by rw [none]; rfl)

/-- A record that has a name is known by it. -/
theorem fullName_of_name {record : TransitionRecord} (named : record.name ≠ "") :
    record.fullName = record.name := by
  unfold fullName
  rw [if_neg (by simpa using named)]

end TransitionRecord

namespace Builder

/-- Waypoints and transitions have a term and a clause, and transitions are filed under their full
names. -/
structure Rooted (builder : Builder) : Prop where
  anchored : builder.Anchored
  titled : ∀ name record, builder.transitions.get? name = some record → record.fullName = name

/-- The empty builder is rooted. -/
theorem rooted_empty : (∅ : Builder).Rooted where
  anchored := (Ingested.start Resolver.integers).anchored
  titled := nofun

/-- Transitions are filed under their full names. -/
theorem Ingests.titled {builder next : Builder} (ingests : Ingests builder next)
    (titled : ∀ name record, builder.transitions.get? name = some record →
      record.fullName = name) :
    ∀ name record, next.transitions.get? name = some record → record.fullName = name := by
  cases ingests with
  | useResolver | addTerm | addTemplate => exact titled
  | defineMacro added | defineMacros added | addLocation added | addWaypoint added =>
      obtain ⟨_, _, rfl⟩ := Except.map_eq_ok_iff.1 added
      exact titled
  | @addTransition _ record added =>
      obtain ⟨_, _, rfl⟩ := Except.map_eq_ok_iff.1 added
      intro name other found
      rw [NameMap.get?_insert] at found
      split at found
      · next here =>
        cases found
        rw [here]
        exact TransitionRecord.fullName_of_name record.fullName_ne_empty
      · exact titled name other found

/-- A rooted builder is rooted after a document. -/
theorem Ingests.rooted {builder next : Builder} (ingests : Ingests builder next)
    (rooted : builder.Rooted) : next.Rooted :=
  ⟨ingests.anchored rooted.anchored, ingests.titled rooted.titled⟩

/-- A rooted builder is rooted after an operation, also one that fails. -/
theorem Operation.keeps_rooted (operation : Operation) : Keeps operation.perform Rooted :=
  operation.keeps (fun _ _ ingests => ingests.rooted) fun _ _ rooted =>
    ⟨rooted.anchored, rooted.titled⟩

end Builder

namespace Manager

/-- Definitions, waypoints and transitions are filed under their names, and no transition's name is
empty. -/
structure Rooted (manager : Manager) : Prop extends manager.Anchored where
  titled : ∀ name transition, manager.transitions.get? name = some transition → name ≠ ""

/-- A rooted manager is rooted after it grows. -/
theorem Rooted.of_growsTo {manager later : Manager} (rooted : manager.Rooted)
    (grows : manager.GrowsTo later) : later.Rooted := by
  rw [grows.1]
  exact ⟨⟨rooted.named, rooted.waypoints, rooted.transitions⟩, rooted.titled⟩

/-- A rooted manager is rooted after it compiles a clause. -/
theorem kept_rooted : KeptByCompiling Rooted := fun name clause manager rooted =>
  rooted.of_growsTo (manager.kept_growsTo name clause manager (.refl _))

/-- The waypoints and the transitions of a builder and no others, each with the term and the
definition of its name. -/
structure Carries (manager : Manager) (builder : Builder) : Prop where
  waypointNames : ∀ name, manager.waypoints.contains name ↔ builder.waypoints.contains name
  waypoints : ∀ name waypoint, manager.waypoints.get? name = some waypoint →
    waypoint.name = name ∧ Builder.WaypointOf manager name waypoint
  transitionNames : ∀ name, manager.transitions.contains name ↔ builder.transitions.contains name
  transitions : ∀ name transition, manager.transitions.get? name = some transition →
    ∃ record, builder.transitions.get? name = some record ∧
      Builder.TransitionOf manager name record transition

end Manager

namespace Builder

variable {builder : Builder} {manager : Manager}

/-- A rooted manager is reopened as a rooted builder. -/
theorem rooted_ofManager (rooted : manager.Rooted) : (ofManager manager).Rooted where
  anchored := anchored_ofManager rooted.toAnchored
  titled := by
    intro name record found
    rw [transitions_ofManager_get? rooted.toAnchored] at found
    obtain ⟨transition, source, rfl⟩ := Option.map_eq_some_iff.1 found
    have named := (rooted.transitions name transition source).1
    have some : transition.name ≠ "" := by
      rw [named]
      exact rooted.titled name transition source
    exact (TransitionRecord.fullName_of_name some).trans named

/-- A rooted builder is built to a rooted manager that carries its records. -/
theorem carries_and_rooted_of_build (rooted : builder.Rooted)
    (built : builder.build = .ok manager) : manager.Carries builder ∧ manager.Rooted := by
  obtain ⟨compiled, waypointed, transitioned, itemed, compiledAll, addedWaypoints,
    addedTransitions, addedItems, rfl⟩ := build_eq_ok_iff.1 built
  obtain ⟨waypoints, rfl, waypointNames, waypointEach⟩ := addWaypoints_openWith_ok addedWaypoints
  obtain ⟨transitions, rfl, transitionNames, transitionEach⟩ :=
    addTransitions_openWith_ok addedTransitions
  obtain ⟨vars, items, rfl⟩ := exists_addItems_eq addedItems
  have named : ∀ name definition, compiled.definitions.get? name = some definition →
      definition.name = name := by
    refine ((builder.scope.retains_named []).compileAll fun entry member => ?_).ok compiledAll nofun
    exact NameMap.contains_iff.2 ⟨entry.2, NameMap.get?_of_mem member⟩
  constructor
  · exact {
      waypointNames := waypointNames
      waypoints := fun name waypoint found =>
        have ofManager := waypointEach name waypoint found
        ⟨named name waypoint.logic ofManager.2, ofManager⟩
      transitionNames := transitionNames
      transitions := transitionEach }
  · refine ⟨⟨named, waypointEach, fun name transition found => ?_⟩, fun name transition found => ?_⟩
    · obtain ⟨_, _, same, _, _, _, isTerm, defined⟩ := transitionEach name transition found
      exact ⟨same, isTerm, defined⟩
    · obtain ⟨record, source, _⟩ := transitionEach name transition found
      rw [← rooted.titled name record source]
      exact record.fullName_ne_empty

end Builder

namespace Session

/-- The builder is rooted and so is the manager, if there is one. -/
def BothRooted (builder : Builder) (built : Option Manager) : Prop :=
  builder.Rooted ∧ ∀ manager, built = some manager → manager.Rooted

/-- Builder and manager stay rooted in every move. -/
theorem kept_bothRooted : Kept BothRooted where
  edit := fun operation builder _ rooted => ⟨operation.keeps_rooted builder rooted.1, rooted.2⟩
  build := by
    rintro builder built manager ⟨rooted, _⟩ ran
    refine ⟨rooted, ?_⟩
    rintro _ ⟨⟩
    exact (Builder.carries_and_rooted_of_build rooted ran).2
  compile := by
    rintro builder name clause manager ⟨rooted, rootedManager⟩
    refine ⟨rooted, ?_⟩
    rintro _ ⟨⟩
    exact Manager.kept_rooted name clause manager (rootedManager manager rfl)
  reopen := by
    rintro builder manager ⟨_, rootedManager⟩
    exact ⟨Builder.rooted_ofManager (rootedManager manager rfl), rootedManager⟩

/-- Wherever a session stands, its builder is rooted. Once all clauses are compiled, adding the
waypoints and the transitions does not fail, and a manager that is built has just these. -/
theorem rooted_after (moves : List Move) :
    (after moves).builder.Rooted ∧
      (∀ compiled, Builder.compileAll (after moves).builder.scope
          (after moves).builder.clauses.entries ⟨∅, ∅⟩ = .ok () compiled →
        ∃ waypoints transitions,
          Builder.addWaypoints ((after moves).builder.openWith compiled)
              (after moves).builder.waypoints.entries =
            .ok { (after moves).builder.openWith compiled with waypoints } ∧
          Builder.addTransitions { (after moves).builder.openWith compiled with waypoints }
              (after moves).builder.transitions.entries =
            .ok { (after moves).builder.openWith compiled with waypoints, transitions }) ∧
      ∀ manager, (after moves).builder.build = .ok manager →
        manager.Carries (after moves).builder := by
  have rooted := (kept_bothRooted.after ⟨Builder.rooted_empty, nofun⟩ moves).1
  refine ⟨rooted, fun compiled compiledAll => ?_, fun manager built => ?_⟩
  · exact Builder.exists_anchors rooted.anchored compiledAll
  · exact (Builder.carries_and_rooted_of_build rooted built).1

/-- The harbour is built with its pier and its quay. -/
theorem rooted_after_harbour :
    ∃ manager, (after harbour).builder.build = .ok manager ∧
      manager.waypoints.contains "Pier" ∧ manager.transitions.contains "Quay[left]" := by
  have succeeds : (after harbour).builder.build.isOk := by cbv
  have known : ((after harbour).builder.waypoints.contains "Pier" &&
      (after harbour).builder.transitions.contains "Quay[left]") = true := by cbv
  obtain ⟨isWaypoint, isTransition⟩ := Bool.and_eq_true_iff.1 known
  obtain ⟨manager, built⟩ := Except.isOk_iff.1 succeeds
  have carries := (rooted_after harbour).2.2 manager built
  exact ⟨manager, built, (carries.waypointNames "Pier").2 isWaypoint,
    (carries.transitionNames "Quay[left]").2 isTransition⟩

end Session

end Randomizer
