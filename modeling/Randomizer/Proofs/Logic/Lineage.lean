import Mathlib.Logic.Relation
import Randomizer.Proofs.Logic.Closure
import Randomizer.Proofs.Logic.Recovery
import Randomizer.Proofs.Logic.Registration

namespace Randomizer

/-- The guards of an item and of its branches. -/
def Item.guards : Item → List Definition
  | .branched _ guard whenTrue whenFalse =>
    let ofTrue := match whenTrue with
      | some item => item.guards
      | none => []
    let ofFalse := match whenFalse with
      | some item => item.guards
      | none => []
    guard :: (ofTrue ++ ofFalse)
  | .bool _ _ | .single _ _ | .multi _ _ | .capped _ _ _ | .empty _ => []

/-- A guard of a branched item is its own or that of a branch. -/
theorem Item.mem_guards_branched {name : String} {own guard : Definition}
    {whenTrue whenFalse : Option Item}
    (member : guard ∈ (Item.branched name own whenTrue whenFalse).guards) :
    guard = own ∨ (∃ item, whenTrue = some item ∧ guard ∈ item.guards) ∨
      ∃ item, whenFalse = some item ∧ guard ∈ item.guards := by
  rw [guards.eq_def] at member
  cases whenTrue <;> cases whenFalse <;> simpa using member

/-- Where the work stands: at a builder that is being filled, or at a manager in use, with the
definitions and items that it has handed out. -/
inductive Stage where
  | editing (builder : Builder)
  | serving (manager : Manager) (definitions : List Definition) (items : List Item)

namespace Stage

/-- One step of the work. What is compiled or made for a manager may fail, and a manager that is
opened again leaves behind what it has handed out. -/
inductive Next : Stage → Stage → Prop where
  | ingest {builder next : Builder} : Builder.Ingests builder next →
      Next (.editing builder) (.editing next)
  | build {builder : Builder} {manager : Manager} : builder.build = .ok manager →
      Next (.editing builder) (.serving manager [] [])
  | compile {manager next : Manager} {definitions : List Definition} {items : List Item}
      {name text : String} {definition : Definition} :
      Manager.compileText name text manager = .ok definition next →
      Next (.serving manager definitions items) (.serving next (definition :: definitions) items)
  | compileInVain {manager next : Manager} {definitions : List Definition} {items : List Item}
      {name text : String} {error : Error} :
      Manager.compileText name text manager = .error error next →
      Next (.serving manager definitions items) (.serving next definitions items)
  | create {manager next : Manager} {definitions : List Definition} {items : List Item}
      {template : ItemTemplate} {item : Item} : template.create manager = .ok item next →
      Next (.serving manager definitions items) (.serving next definitions (item :: items))
  | createInVain {manager next : Manager} {definitions : List Definition} {items : List Item}
      {template : ItemTemplate} {error : Error} : template.create manager = .error error next →
      Next (.serving manager definitions items) (.serving next definitions items)
  | reopen (manager : Manager) (definitions : List Definition) (items : List Item) :
      Next (.serving manager definitions items) (.editing (Builder.ofManager manager))

/-- A stage that the work on an empty builder comes to. -/
def Reached (stage : Stage) : Prop :=
  ∃ resolver, Relation.ReflTransGen Next (.editing { Builder.empty with resolver }) stage

/-- A program that is in a manager or was handed out by it. -/
inductive Carries (manager : Manager) (definitions : List Definition) (items : List Item) :
    Program → Prop where
  | definition {name : String} {definition : Definition} :
      manager.definitions.get? name = some definition →
      Carries manager definitions items definition.program
  | waypoint {name : String} {waypoint : Waypoint} :
      manager.waypoints.get? name = some waypoint →
      Carries manager definitions items waypoint.logic.program
  | transition {name : String} {transition : Transition} :
      manager.transitions.get? name = some transition →
      Carries manager definitions items transition.logic.program
  | guard {name : String} {item : Item} {guard : Definition} :
      manager.items.get? name = some item → guard ∈ item.guards →
      Carries manager definitions items guard.program
  | compiled {definition : Definition} : definition ∈ definitions →
      Carries manager definitions items definition.program
  | created {item : Item} {guard : Definition} : item ∈ items → guard ∈ item.guards →
      Carries manager definitions items guard.program

end Stage

/-- The guards of a grounded item are definitions of texts. -/
theorem Item.Grounded.guards {item : Item} {ambient : Scope} {vars : VariableTable}
    (grounded : item.Grounded ambient vars) : ∀ guard ∈ item.guards, guard.OfText ambient vars := by
  induction grounded with
  | bool | single | multi | capped | empty =>
      intro guard member
      cases member
  | branched _ ofText _ _ ihTrue ihFalse =>
      intro guard member
      rcases Item.mem_guards_branched member with
        rfl | ⟨item, found, inside⟩ | ⟨item, found, inside⟩
      · exact ofText
      · exact ihTrue item found guard inside
      · exact ihFalse item found guard inside

namespace Builder

variable {builder : Builder} {manager later : Manager}

/-- What a builder's manager holds stays when more variables are found. -/
theorem Builds.grow (builds : builder.Builds manager) (grown : manager.Extends later) :
    builder.Builds later := by
  obtain ⟨⟨same, before⟩, found⟩ := grown
  generalize later.vars = vars at same before found
  subst same
  rw [builds.terms, builds.resolver] at found
  exact { builds with
    sound := {
      part := builds.sound.part
      compiled := {
        registered := found.matched
        definitions := by
          intro name definition defined
          obtain ⟨named, clause, source, expands⟩ :=
            builds.sound.compiled.definitions name definition defined
          exact ⟨named, clause, source, expands.mono before⟩
        complete := builds.sound.compiled.complete } }
    items := by
      intro name item known
      obtain ⟨named, grounded⟩ := builds.items name item known
      exact ⟨named, grounded.mono before⟩ }

/-- The clauses of a manager that is opened again write the trees of its programs. -/
theorem formed_ofManager (formed : builder.scope.Formed) (builds : builder.Builds manager) :
    (ofManager manager).scope.Formed where
  macros := by
    intro name clause found
    change manager.macros.get? name = some clause at found
    rw [builds.macros] at found
    exact formed.macros name clause found
  sources := by
    intro name clause found
    have named (name : String) (definition : Definition)
        (known : manager.definitions.get? name = some definition) : definition.name = name :=
      (builds.sound.compiled.definitions name definition known).1
    have source : (manager.definitions.get? name).map manager.clauseOf = some clause :=
      (NameMap.get?_ofList_values manager.clauseOf named name).symm.trans found
    obtain ⟨definition, known, rfl⟩ := Option.map_eq_some_iff.1 source
    obtain ⟨_, _, _, _, tree, _, _, writes⟩ :=
      builds.sound.compiled.definitions name definition known
    refine ⟨tree.map manager.tokenOf, ?_, ?_⟩
    · rw [manager.clauseOf_program writes]
    · refine Tree.all_map.2 (Tree.all_of_forall (fun primitive => ?_) _)
      cases primitive <;> trivial

end Builder

namespace Stage

/-- What a manager in use and all that it has handed out were compiled from. -/
structure Stands (builder : Builder) (manager : Manager) (definitions : List Definition)
    (items : List Item) : Prop where
  formed : builder.scope.Formed
  builds : builder.Builds manager
  found : manager.vars.FoundBy manager.terms manager.resolver
  definitions : ∀ definition ∈ definitions, definition.OfText builder.scope manager.vars
  items : ∀ item ∈ items, item.Grounded builder.scope manager.vars

/-- Clauses write trees at every stage, and what is in use was compiled from them. -/
def Sound : Stage → Prop
  | .editing builder => builder.scope.Formed ∧ builder.prefabs = ∅
  | .serving manager definitions items => ∃ builder, Stands builder manager definitions items

/-- Variables that are found later keep everything as it is. -/
theorem Stands.grow {builder : Builder} {manager later : Manager} {definitions : List Definition}
    {items : List Item} (stands : Stands builder manager definitions items)
    (grown : manager.Extends later) : Stands builder later definitions items where
  formed := stands.formed
  builds := stands.builds.grow grown
  found := by
    have terms : later.terms = manager.terms := by rw [grown.1.1]
    have resolver : later.resolver = manager.resolver := by rw [grown.1.1]
    rw [terms, resolver]
    exact grown.2
  definitions := fun definition member => (stands.definitions definition member).mono grown.1.2
  items := fun item member => (stands.items item member).mono grown.1.2

/-- A step that stays with the manager keeps what all was compiled from. -/
theorem Stands.next {builder : Builder} {manager later : Manager}
    {definitions laterDefinitions : List Definition} {items laterItems : List Item}
    (stands : Stands builder manager definitions items)
    (step : Next (.serving manager definitions items)
      (.serving later laterDefinitions laterItems)) :
    Stands builder later laterDefinitions laterItems := by
  cases step with
  | compile compiled =>
      obtain ⟨_, ofText, _⟩ := Manager.compileText_ok stands.formed stands.builds.sound compiled
      have kept := stands.grow
        ((Manager.keeps_compileText _ _ _).ok compiled ⟨.refl _, stands.found⟩)
      exact { kept with definitions := List.forall_mem_cons.2 ⟨ofText, kept.definitions⟩ }
  | compileInVain failed =>
      exact stands.grow
        ((Manager.keeps_compileText _ _ _).error failed ⟨.refl _, stands.found⟩)
  | create created =>
      obtain ⟨_, grounded, _⟩ := ItemTemplate.create_ok stands.formed stands.builds.sound created
      have kept := stands.grow
        ((ItemTemplate.keeps_create _ _).ok created ⟨.refl _, stands.found⟩)
      exact { kept with items := List.forall_mem_cons.2 ⟨grounded, kept.items⟩ }
  | createInVain failed =>
      exact stands.grow
        ((ItemTemplate.keeps_create _ _).error failed ⟨.refl _, stands.found⟩)

/-- A manager that is built stands on the builder's clauses. -/
theorem stands_of_build {builder : Builder} {manager : Manager} (formed : builder.scope.Formed)
    (noPrefabs : builder.prefabs = ∅) (built : builder.build = .ok manager) :
    Stands builder manager [] [] := by
  have builds := Builder.builds_of_build formed noPrefabs built
  have found := Builder.foundBy_of_build built
  rw [← builds.terms, ← builds.resolver] at found
  exact ⟨formed, builds, found, by simp, by simp⟩

/-- A step from a sound stage leads to a sound stage. -/
theorem Next.sound {stage later : Stage} (next : Next stage later) (sound : stage.Sound) :
    later.Sound := by
  cases next with
  | ingest ingests =>
      obtain ⟨formed, noPrefabs⟩ := sound
      obtain ⟨macros, clauses⟩ := ingests.allClauses
        (fun _ _ _ _ parsed => (MacroTable.readable_of_parseWith parsed).formed)
        ⟨formed.macros, formed.sources⟩
      exact ⟨⟨macros, clauses⟩, ingests.prefabs.trans noPrefabs⟩
  | @build builder manager built => exact ⟨builder, stands_of_build sound.1 sound.2 built⟩
  | compile compiled =>
      obtain ⟨builder, stands⟩ := sound
      exact ⟨builder, stands.next (.compile compiled)⟩
  | compileInVain failed =>
      obtain ⟨builder, stands⟩ := sound
      exact ⟨builder, stands.next (.compileInVain failed)⟩
  | create created =>
      obtain ⟨builder, stands⟩ := sound
      exact ⟨builder, stands.next (.create created)⟩
  | createInVain failed =>
      obtain ⟨builder, stands⟩ := sound
      exact ⟨builder, stands.next (.createInVain failed)⟩
  | reopen manager definitions items =>
      obtain ⟨builder, stands⟩ := sound
      exact ⟨Builder.formed_ofManager stands.formed stands.builds, rfl⟩

/-- Every stage that is reached is sound. -/
theorem Reached.sound {stage : Stage} (reached : stage.Reached) : stage.Sound := by
  obtain ⟨resolver, path⟩ := reached
  induction path with
  | refl =>
      refine ⟨⟨fun _ _ found => ?_, fun _ _ found => ?_⟩, rfl⟩
      · cases found
      · cases found
  | tail _ next ih => exact next.sound ih

/-- Every program comes from a clause, and from a readable one when the sources are readable. -/
theorem Stands.exists_source {builder : Builder} {manager : Manager}
    {definitions : List Definition} {items : List Item}
    (stands : Stands builder manager definitions items) {program : Program}
    (carries : Carries manager definitions items program) :
    ∃ clause, (builder.scope.sources.Readable → clause.Readable) ∧
      builder.scope.ClauseExpands manager.vars clause program := by
  have inManager {name : String} {definition : Definition}
      (known : manager.definitions.get? name = some definition) :
      ∃ clause, (builder.scope.sources.Readable → clause.Readable) ∧
        builder.scope.ClauseExpands manager.vars clause definition.program := by
    obtain ⟨_, clause, source, expands⟩ :=
      stands.builds.sound.compiled.definitions name definition known
    exact ⟨clause, fun readable => readable name clause source, expands⟩
  have ofText {definition : Definition} (read : definition.OfText builder.scope manager.vars) :
      ∃ clause, (builder.scope.sources.Readable → clause.Readable) ∧
        builder.scope.ClauseExpands manager.vars clause definition.program := by
    obtain ⟨clause, readable, expands⟩ := read
    exact ⟨clause, fun _ => readable, expands⟩
  cases carries with
  | definition known => exact inManager known
  | waypoint known => exact inManager (stands.builds.waypoints _ _ known).2
  | transition known =>
      obtain ⟨_, _, _, _, _, _, _, defined⟩ := stands.builds.transitions _ _ known
      exact inManager defined
  | guard known member => exact ofText ((stands.builds.items _ _ known).2.guards _ member)
  | compiled member => exact ofText (stands.definitions _ member)
  | created among member => exact ofText ((stands.items _ among).guards _ member)

/-- Every program that a manager carries is what some clause is replaced by. -/
theorem Stands.exists_clauseExpands {builder : Builder} {manager : Manager}
    {definitions : List Definition} {items : List Item}
    (stands : Stands builder manager definitions items) {program : Program}
    (carries : Carries manager definitions items program) :
    ∃ clause, builder.scope.ClauseExpands manager.vars clause program := by
  obtain ⟨clause, _, expands⟩ := stands.exists_source carries
  exact ⟨clause, expands⟩

/-- Whatever was ingested, built, compiled, made and opened again, also in vain: the variables of a
manager are indexed by names that are no terms, and all its programs and those that it has handed
out are closed, so that none misses anything when it runs. -/
theorem closed_of_reached {manager : Manager} {definitions : List Definition} {items : List Item}
    (reached : Reached (.serving manager definitions items)) :
    manager.vars.Indexed manager.terms ∧
      ∀ program, Carries manager definitions items program →
        program.Closed manager.terms manager.vars ∧ program.Smooth manager.vars := by
  obtain ⟨builder, stands⟩ := reached.sound
  refine ⟨stands.found.indexed, fun program carries => ?_⟩
  obtain ⟨clause, expands⟩ := stands.exists_clauseExpands carries
  have closed : program.Closed manager.terms manager.vars := by
    rw [stands.builds.terms]
    exact expands.closed
  exact ⟨closed, closed.smooth⟩

/-- The stage of an ingested builder is reached. -/
theorem reached_of_ingested {builder : Builder} (ingested : builder.Ingested) :
    Reached (.editing builder) := by
  refine ingested.invariant (motive := fun builder => Reached (.editing builder)) ?_ ?_
  · exact fun resolver => ⟨resolver, .refl⟩
  · intro builder next ingests reached
    obtain ⟨resolver, path⟩ := reached
    exact ⟨resolver, path.tail (.ingest ingests)⟩

/-- The household is built to a manager whose programs are closed and smooth. -/
theorem closed_of_reached_household :
    ∃ manager, Reached (.serving manager [] []) ∧ manager.vars.Indexed manager.terms ∧
      ∀ program, Carries manager [] [] program →
        program.Closed manager.terms manager.vars ∧ program.Smooth manager.vars := by
  obtain ⟨manager, built⟩ := Builder.household_builds
  obtain ⟨resolver, path⟩ := reached_of_ingested (Builder.ingested_ofDocuments _)
  have reached : Reached (.serving manager [] []) := ⟨resolver, path.tail (.build built)⟩
  exact ⟨manager, reached, closed_of_reached reached⟩

end Stage

end Randomizer
