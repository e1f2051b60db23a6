import Mathlib
import Randomizer.Proofs.Logic.Item

/-!
Building a manager. Every clause of the builder becomes a definition with the meaning of the clause,
whichever is compiled first and whichever is compiled on demand; waypoints and transitions take
their logic from these definitions, and items add variables only.
-/

namespace Randomizer

namespace Builder

/-- What the clauses of the builder are compiled in. -/
def scope (builder : Builder) : Scope :=
  ⟨builder.terms, builder.macros, builder.resolver, builder.clauses⟩

/-- The clauses and macros of an ingested builder can be read. -/
theorem Ingested.scope_readable {builder : Builder} (ingested : builder.Ingested) :
    builder.scope.Readable :=
  ⟨ingested.readable.1, ingested.readable.2⟩

/-- A waypoint takes its term and its logic from the manager, under its name. -/
def WaypointOf (manager : Manager) (name : String) (waypoint : Waypoint) : Prop :=
  manager.terms.idOf? name = some waypoint.term ∧
    manager.definitions.get? name = some waypoint.logic

/-- A transition keeps what its record says and takes the rest from the manager. -/
def TransitionOf (manager : Manager) (name : String) (record : TransitionRecord)
    (transition : Transition) : Prop :=
  transition.name = name ∧ transition.scene = record.scene ∧ transition.gate = record.gate ∧
    transition.passage = record.passage ∧
    manager.terms.idOf? name = some transition.term ∧
    manager.definitions.get? name = some transition.logic

/-- What a manager holds that was built from the builder. -/
structure Builds (builder : Builder) (manager : Manager) : Prop where
  terms : manager.terms = builder.terms
  macros : manager.macros = builder.macros
  resolver : manager.resolver = builder.resolver
  sound : manager.Sound builder.scope
  waypointNames : ∀ name, manager.waypoints.contains name ↔ builder.waypoints.contains name
  waypoints : ∀ name waypoint, manager.waypoints.get? name = some waypoint →
    WaypointOf manager name waypoint
  transitionNames : ∀ name,
    manager.transitions.contains name ↔ builder.transitions.contains name
  transitions : ∀ name transition, manager.transitions.get? name = some transition →
    ∃ record, builder.transitions.get? name = some record ∧
      TransitionOf manager name record transition
  items : ∀ name item, manager.items.get? name = some item →
    item.name = name ∧ item.Grounded builder.scope manager.vars

/-- The empty state is sound. -/
theorem sound_start (scope : Scope) : Compiled.Sound scope scope ⟨∅, ∅⟩ where
  registered := by
    intro registration member
    cases member
  definitions := by
    intro name definition found
    cases found
  complete := by
    intro name member
    obtain ⟨clause, found⟩ := NameMap.mem_keys_iff.1 member
    exact .inr (NameMap.contains_iff.2 ⟨clause, found⟩)

/-- Compiling clauses one after another keeps what is compiled sound. -/
theorem compileAll_ok {scope : Scope} (formed : scope.Formed)
    {entries : List (String × Clause)} {compiled next : Compiled}
    (sources : ∀ entry ∈ entries, scope.sources.get? entry.1 = some entry.2)
    (sound : compiled.Sound scope scope)
    (ran : compileAll scope entries compiled = .ok () next) : next.Sound scope scope := by
  induction entries generalizing compiled with
  | nil =>
      cases ran
      exact sound
  | cons entry rest ih =>
      obtain ⟨name, clause⟩ := entry
      have source := sources (name, clause) (by simp)
      have others := fun entry member => sources entry (List.mem_cons_of_mem _ member)
      rw [compileAll, EStateM.get_bind_apply] at ran
      split at ran
      · exact ih others sound ran
      · obtain ⟨definition, middle, compiledClause, continued⟩ := EStateM.bind_eq_ok_iff.1 ran
        obtain ⟨_, _, inserted, ranRest⟩ := EStateM.bind_eq_ok_iff.1 continued
        cases inserted
        obtain ⟨named, soundMiddle, _, expands⟩ := Scope.compileClause_ok (.refl _)
          formed (formed.sources name clause source) sound compiledClause
        subst named
        exact ih others (soundMiddle.define source expands) ranRest

/-- Clauses are compiled one part after the other. -/
theorem compileAll_append {scope : Scope} {before after : List (String × Clause)}
    {compiled middle : Compiled} (ran : compileAll scope before compiled = .ok () middle) :
    compileAll scope (before ++ after) compiled = compileAll scope after middle := by
  induction before generalizing compiled with
  | nil =>
      cases ran
      rfl
  | cons entry rest ih =>
      rw [List.cons_append, compileAll, EStateM.get_bind_apply]
      rw [compileAll, EStateM.get_bind_apply] at ran
      cases known : compiled.definitions.contains entry.1 with
      | true =>
          simp only [known, if_true] at ran ⊢
          exact ih ran
      | false =>
          simp only [known, Bool.false_eq_true, if_false] at ran ⊢
          obtain ⟨definition, next, compiledClause, continued⟩ := EStateM.bind_eq_ok_iff.1 ran
          obtain ⟨_, _, inserted, ranRest⟩ := EStateM.bind_eq_ok_iff.1 continued
          rw [EStateM.bind_of_ok compiledClause, EStateM.bind_of_ok inserted]
          exact ih ranRest

/-- A definition that is looked up is there under its name. -/
theorem definitionOf_ok {definitions : NameMap Definition} {name : String}
    {definition : Definition} (found : definitionOf definitions name = .ok definition) :
    definitions.get? name = some definition := by
  unfold definitionOf at found
  split at found
  · next known =>
    cases found
    exact known
  · cases found

/-- A term that is looked up is there under its name. -/
theorem term_ok {manager : Manager} {name : String} {id : TermId}
    (found : manager.term name = .ok id) : manager.terms.idOf? name = some id := by
  unfold Manager.term at found
  split at found
  · next known =>
    cases found
    exact known
  · cases found

/-- A waypoint that is built has the term and the definition of its name. -/
theorem buildWaypoint_ok {manager : Manager} {name : String} {waypoint : Waypoint}
    (built : buildWaypoint manager name = .ok waypoint) : WaypointOf manager name waypoint := by
  obtain ⟨term, found, continued⟩ := Except.bind_eq_ok_iff.1 built
  obtain ⟨logic, defined, returned⟩ := Except.bind_eq_ok_iff.1 continued
  cases returned
  exact ⟨term_ok found, definitionOf_ok defined⟩

/-- A transition that is built has the term, the definition and the fields of its record. -/
theorem buildTransition_ok {manager : Manager} {name : String} {record : TransitionRecord}
    {transition : Transition} (built : buildTransition manager name record = .ok transition) :
    TransitionOf manager name record transition := by
  obtain ⟨term, found, continued⟩ := Except.bind_eq_ok_iff.1 built
  obtain ⟨logic, defined, returned⟩ := Except.bind_eq_ok_iff.1 continued
  cases returned
  exact ⟨rfl, rfl, rfl, rfl, term_ok found, definitionOf_ok defined⟩

/-- Waypoints that are added are built from their names, and nothing else of the manager changes. -/
theorem addWaypoints_ok {manager next : Manager} {entries : List (String × LogicRecord)}
    (ran : addWaypoints manager entries = .ok next) :
    ∃ waypoints, next = { manager with waypoints } ∧
      (∀ name, waypoints.contains name ↔
        manager.waypoints.contains name ∨ name ∈ entries.map Prod.fst) ∧
      ∀ name waypoint, waypoints.get? name = some waypoint →
        manager.waypoints.get? name = some waypoint ∨ WaypointOf manager name waypoint := by
  induction entries generalizing manager with
  | nil =>
      cases ran
      exact ⟨next.waypoints, rfl, by simp, fun name waypoint => .inl⟩
  | cons entry rest ih =>
      obtain ⟨name, record⟩ := entry
      obtain ⟨waypoint, built, ranRest⟩ := Except.bind_eq_ok_iff.1 ran
      obtain ⟨waypoints, rfl, names, each⟩ := ih ranRest
      refine ⟨waypoints, rfl, fun other => ?_, fun other found known => ?_⟩
      · rw [names, NameMap.contains_insert]
        simp only [Bool.or_eq_true, beq_iff_eq, List.map_cons, List.mem_cons]
        rw [or_assoc, or_left_comm]
      · rcases each other found known with inserted | ofManager
        · rw [NameMap.get?_insert] at inserted
          split at inserted
          · next here =>
            cases inserted
            exact .inr (here ▸ buildWaypoint_ok built)
          · exact .inl inserted
        · exact .inr ofManager

/-- Transitions that are added are built from their records, and nothing else of the manager
changes. -/
theorem addTransitions_ok {manager next : Manager} {entries : List (String × TransitionRecord)}
    (ran : addTransitions manager entries = .ok next) :
    ∃ transitions, next = { manager with transitions } ∧
      (∀ name, transitions.contains name ↔
        manager.transitions.contains name ∨ name ∈ entries.map Prod.fst) ∧
      ∀ name transition, transitions.get? name = some transition →
        manager.transitions.get? name = some transition ∨
          ∃ record, (name, record) ∈ entries ∧ TransitionOf manager name record transition := by
  induction entries generalizing manager with
  | nil =>
      cases ran
      exact ⟨next.transitions, rfl, by simp, fun name transition => .inl⟩
  | cons entry rest ih =>
      obtain ⟨name, record⟩ := entry
      obtain ⟨transition, built, ranRest⟩ := Except.bind_eq_ok_iff.1 ran
      obtain ⟨transitions, rfl, names, each⟩ := ih ranRest
      refine ⟨transitions, rfl, fun other => ?_, fun other found known => ?_⟩
      · rw [names, NameMap.contains_insert]
        simp only [Bool.or_eq_true, beq_iff_eq, List.map_cons, List.mem_cons]
        rw [or_assoc, or_left_comm]
      · rcases each other found known with inserted | ⟨otherRecord, member, ofManager⟩
        · rw [NameMap.get?_insert] at inserted
          split at inserted
          · next here =>
            cases inserted
            subst here
            exact .inr ⟨record, by simp, buildTransition_ok built⟩
          · exact .inl inserted
        · exact .inr ⟨otherRecord, List.mem_cons_of_mem _ member, ofManager⟩

/-- Items are made one after another, each from a template of its name. -/
theorem addItems_ok {manager next : Manager} {ambient : Scope} {templates : List ItemTemplate}
    (formed : ambient.Formed) (sound : manager.Sound ambient)
    (ran : addItems manager templates = .ok next) :
    ∃ vars items, next = { manager with vars, items } ∧ manager.vars.Precedes vars ∧
      next.Sound ambient ∧
      ∀ name item, items.get? name = some item → manager.items.get? name = some item ∨
        item.name = name ∧ item.Grounded ambient vars := by
  induction templates generalizing manager with
  | nil =>
      cases ran
      exact ⟨next.vars, next.items, rfl, .refl _, sound, fun name item => .inl⟩
  | cons template rest ih =>
      rw [addItems] at ran
      split at ran
      · next item middle created =>
        obtain ⟨named, grounded, soundMiddle, same, before⟩ :=
          ItemTemplate.create_ok formed sound created
        obtain ⟨vars, items, rfl, beforeNext, soundNext, each⟩ :=
          ih (soundMiddle.withItems (middle.items.insert item.name item)) ran
        refine ⟨vars, items, ?_, before.trans beforeNext, soundNext, fun name found known => ?_⟩
        · rw [same]
        · rcases each name found known with inserted | ofTemplate
          · rw [NameMap.get?_insert] at inserted
            split at inserted
            · next here =>
              cases inserted
              exact .inr ⟨here.symm, grounded.mono beforeNext⟩
            · rw [same] at inserted
              exact .inl inserted
          · exact .inr ofTemplate
      · cases ran

/-- The manager with the definitions compiled and nothing built on them. -/
def openWith (builder : Builder) (compiled : Compiled) : Manager where
  terms := builder.terms
  macros := builder.macros
  resolver := builder.resolver
  vars := compiled.vars
  definitions := compiled.definitions
  items := ∅
  transitions := ∅
  waypoints := ∅

/-- Waypoints that are all added get the names of the builder's, and each its term and logic. -/
theorem addWaypoints_openWith_ok {builder : Builder} {compiled : Compiled} {next : Manager}
    (ran : addWaypoints (builder.openWith compiled) builder.waypoints.entries = .ok next) :
    ∃ waypoints, next = { builder.openWith compiled with waypoints } ∧
      (∀ name, waypoints.contains name ↔ builder.waypoints.contains name) ∧
      ∀ name waypoint, waypoints.get? name = some waypoint →
        WaypointOf (builder.openWith compiled) name waypoint := by
  obtain ⟨waypoints, rfl, names, each⟩ := addWaypoints_ok ran
  refine ⟨waypoints, rfl, fun name => ?_, fun name waypoint found => ?_⟩
  · have none : ¬ (∅ : NameMap Waypoint).contains name := NameMap.not_contains_empty name
    exact ((names name).trans (or_iff_right none)).trans NameMap.contains_iff_mem_keys.symm
  · exact (each name waypoint found).resolve_left nofun

/-- Transitions that are all added get the names of the builder's, and each agrees with the record
of its name. -/
theorem addTransitions_openWith_ok {builder : Builder} {compiled : Compiled} {next : Manager}
    {waypoints : NameMap Waypoint}
    (ran : addTransitions { builder.openWith compiled with waypoints }
      builder.transitions.entries = .ok next) :
    ∃ transitions, next = { builder.openWith compiled with waypoints, transitions } ∧
      (∀ name, transitions.contains name ↔ builder.transitions.contains name) ∧
      ∀ name transition, transitions.get? name = some transition →
        ∃ record, builder.transitions.get? name = some record ∧
          TransitionOf (builder.openWith compiled) name record transition := by
  obtain ⟨transitions, rfl, names, each⟩ := addTransitions_ok ran
  refine ⟨transitions, rfl, fun name => ?_, fun name transition found => ?_⟩
  · have none : ¬ (∅ : NameMap Transition).contains name := NameMap.not_contains_empty name
    exact ((names name).trans (or_iff_right none)).trans NameMap.contains_iff_mem_keys.symm
  · obtain ⟨record, member, ofManager⟩ := (each name transition found).resolve_left nofun
    exact ⟨record, NameMap.get?_of_mem member, ofManager⟩

/-- The stages of a build that succeeds. -/
theorem build_eq_ok_iff {builder : Builder} {manager : Manager} :
    builder.build = .ok manager ↔
      ∃ compiled waypointed transitioned itemed,
        compileAll builder.scope builder.clauses.entries ⟨∅, ∅⟩ = .ok () compiled ∧
        addWaypoints (builder.openWith compiled) builder.waypoints.entries = .ok waypointed ∧
        addTransitions waypointed builder.transitions.entries = .ok transitioned ∧
        addItems transitioned builder.templates.values = .ok itemed ∧
        manager = { itemed with items := itemed.items.insertAll builder.prefabs.entries } := by
  unfold build Builder.scope
  dsimp only
  cases compileAll ⟨builder.terms, builder.macros, builder.resolver, builder.clauses⟩
    builder.clauses.entries ⟨∅, ∅⟩ with
  | error error compiled => simp
  | ok _ compiled =>
      simp only [Except.bind_eq_ok_iff]
      constructor
      · rintro ⟨waypointed, first, transitioned, second, itemed, third, ⟨⟩⟩
        exact ⟨compiled, waypointed, transitioned, itemed, rfl, first, second, third, rfl⟩
      · rintro ⟨_, waypointed, transitioned, itemed, ⟨⟩, first, second, third, rfl⟩
        exact ⟨waypointed, first, transitioned, second, itemed, third, rfl⟩

/-- An error of the compilation is the error of the build. -/
theorem build_of_error {builder : Builder} {error : Error} {compiled : Compiled}
    (failed : compileAll builder.scope builder.clauses.entries ⟨∅, ∅⟩ = .error error compiled) :
    builder.build = .error error := by
  unfold build
  unfold scope at failed
  dsimp only
  rw [failed]

/-- With every clause compiled, the definitions cover all that a reference can reach. -/
theorem sound_openWith {builder : Builder} (formed : builder.scope.Formed)
    {compiled : Compiled}
    (ran : compileAll builder.scope builder.clauses.entries ⟨∅, ∅⟩ = .ok () compiled)
    (waypoints : NameMap Waypoint) (transitions : NameMap Transition) :
    Manager.Sound { builder.openWith compiled with waypoints, transitions } builder.scope := by
  have sound := compileAll_ok formed
    (fun entry member => NameMap.get?_of_mem member) (sound_start builder.scope) ran
  have defined := Scope.contains_of_compileAll (fun entry member =>
    NameMap.contains_iff.2 ⟨entry.2, NameMap.get?_of_mem member⟩) ran
  refine ⟨⟨rfl, rfl, rfl, fun _ _ => nofun⟩, sound.registered, sound.definitions,
    fun name known => ?_⟩
  obtain ⟨clause, source⟩ := NameMap.mem_keys_iff.1 known
  exact .inl (defined (name, clause) (NameMap.mem_of_get? source))

/-- What building leaves, for a builder whose clauses write trees. -/
theorem builds_of_build {builder : Builder} {manager : Manager} (formed : builder.scope.Formed)
    (noPrefabs : builder.prefabs = ∅) (built : builder.build = .ok manager) :
    builder.Builds manager := by
  obtain ⟨compiled, waypointed, transitioned, itemed, compiledAll, addedWaypoints,
    addedTransitions, addedItems, rfl⟩ := build_eq_ok_iff.1 built
  obtain ⟨waypoints, rfl, waypointNames, waypointEach⟩ := addWaypoints_openWith_ok addedWaypoints
  obtain ⟨transitions, rfl, transitionNames, transitionEach⟩ :=
    addTransitions_openWith_ok addedTransitions
  have soundOpened := sound_openWith formed compiledAll waypoints transitions
  obtain ⟨vars, items, rfl, _, soundItemed, itemEach⟩ :=
    addItems_ok formed soundOpened addedItems
  rw [noPrefabs]
  exact {
    terms := rfl
    macros := rfl
    resolver := rfl
    sound := soundItemed.withItems _
    waypointNames := waypointNames
    waypoints := waypointEach
    transitionNames := transitionNames
    transitions := transitionEach
    items := by
      intro name item found
      rcases itemEach name item found with none | made
      · cases none
      · exact made }

/-- What building leaves, for a builder whose clauses were read from text. -/
theorem build_ok {builder : Builder} {manager : Manager} (readable : builder.scope.Readable)
    (noPrefabs : builder.prefabs = ∅) (built : builder.build = .ok manager) :
    builder.Builds manager :=
  builds_of_build readable.formed noPrefabs built

/-- A definition stands for each clause, under the name of the clause. -/
theorem Builds.definition {builder : Builder} {manager : Manager} (builds : builder.Builds manager)
    {name : String} {clause : Clause} (source : builder.clauses.get? name = some clause) :
    ∃ definition, manager.definitions.get? name = some definition ∧ definition.name = name ∧
      builder.scope.ClauseExpands manager.vars clause definition.program :=
  builds.sound.exists_definition source

/-- A built manager has a definition for each clause and no others. -/
theorem Builds.definitionNames {builder : Builder} {manager : Manager}
    (builds : builder.Builds manager) (name : String) :
    manager.definitions.contains name ↔ builder.clauses.contains name := by
  rw [NameMap.contains_iff, NameMap.contains_iff]
  constructor
  · rintro ⟨definition, found⟩
    obtain ⟨_, clause, source, _⟩ := builds.sound.compiled.definitions name definition found
    exact ⟨clause, source⟩
  · rintro ⟨clause, source⟩
    obtain ⟨definition, found, _⟩ := builds.definition source
    exact ⟨definition, found⟩

/-- Whatever a builder was filled with by ingestion, a definition of a manager built from it has
the value that its source clause means to it. -/
theorem value_build {builder : Builder} {manager : Manager} (ingested : builder.Ingested)
    (built : builder.build = .ok manager) {name : String} {clause : Clause}
    (source : builder.clauses.get? name = some clause) :
    ∃ definition, manager.definitions.get? name = some definition ∧ definition.name = name ∧
      ∀ reading value, builder.scope.ClauseMeans name reading clause value ↔
        value = definition.value manager.vars reading := by
  have readable : builder.scope.Readable := ⟨ingested.readable.1, ingested.readable.2⟩
  have builds := build_ok readable ingested.prefabs built
  obtain ⟨definition, found, named, expands⟩ := builds.definition source
  refine ⟨definition, found, named, fun reading value => ?_⟩
  have means : builder.scope.ClauseMeans name reading clause
      (definition.value manager.vars reading) := by
    rw [Definition.value, named]
    exact expands.means name reading
  constructor
  · intro meansValue
    exact meansValue.unique means
  · rintro rfl
    exact means

/-- A macro, a reference to a clause that comes later in name order with a fallback in it, and an
item whose guard groups from the right. -/
def household : Builder := ofDocuments [
  .terms ["K", "L"],
  .macros (.ofList [("M", "K > 1")]),
  .items [.branched "I" "L | (M | K)" (some (.single "J" ⟨"K", 1⟩)) none],
  .waypoints [⟨"W", "L"⟩],
  .locations [⟨"A", "*B + M"⟩, ⟨"B", "G?L"⟩]]

/-- The household can be built. -/
theorem household_builds : ∃ manager, household.build = .ok manager := by
  have succeeds : household.build.isOk := by cbv
  exact Except.isOk_iff.1 succeeds

/-- In the household a reference and a macro mean what their clauses say. -/
theorem value_build_household :
    ∃ manager definition, household.build = .ok manager ∧
      manager.definitions.get? "A" = some definition ∧
      ∀ reading value, household.scope.ClauseMeans "A" reading
        ⟨[.reference "B", .macroName "M", .connective .and]⟩ value ↔
        value = definition.value manager.vars reading := by
  obtain ⟨manager, built⟩ := household_builds
  have source : household.clauses.get? "A" =
      some ⟨[.reference "B", .macroName "M", .connective .and]⟩ := by decide +kernel
  obtain ⟨definition, found, _, value⟩ :=
    value_build (ingested_ofDocuments _) built source
  exact ⟨manager, definition, built, found, value⟩

end Builder

end Randomizer
