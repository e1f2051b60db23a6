import Randomizer.Proofs.Logic.Anchoring
import Randomizer.Proofs.Logic.Recompilation

/-!
Opening a manager for editing and building it again. The logic comes back as text with macros and
references expanded, and variables get new slots, but what the manager says about progression stays
the same.
-/

namespace Randomizer

/-- Items that the later variables make no different. -/
structure Item.Alike (vars later : VariableTable) (item other : Item) : Prop where
  name : other.name = item.name
  effectTerms : other.effectTerms = item.effectTerms
  grant : other.grant later = item.grant vars

namespace Item

variable {vars later : VariableTable}

/-- Items with the same grant are alike. -/
theorem Alike.refl_of_grant {item : Item} (same : item.grant later = item.grant vars) :
    item.Alike vars later item :=
  ⟨rfl, rfl, same⟩

/-- Branches that do and change the same. -/
structure BranchesAlike (vars later : VariableTable) (branch other : Option Item) : Prop where
  terms : branchTerms other = branchTerms branch
  grant : grantBranch later other = grantBranch vars branch

/-- Branched items are alike if their guards hold alike and their branches are alike. -/
theorem Alike.branched {name : String} {guard other : Definition}
    {whenTrue whenFalse otherTrue otherFalse : Option Item}
    (holds : ∀ reading, other.holds later reading = guard.holds vars reading)
    (ofTrue : BranchesAlike vars later whenTrue otherTrue)
    (ofFalse : BranchesAlike vars later whenFalse otherFalse) :
    Alike vars later (.branched name guard whenTrue whenFalse)
      (.branched name other otherTrue otherFalse) where
  name := rfl
  effectTerms := by rw [effectTerms_branched, effectTerms_branched, ofTrue.terms, ofFalse.terms]
  grant := by
    rw [grant_branched, grant_branched]
    simp only [holds, ofTrue.grant, ofFalse.grant]

end Item

/-- A branched item is written with its guard as text and its branches as templates. -/
theorem ItemTemplate.ofItem_branched (manager : Manager) (name : String) (guard : Definition)
    (whenTrue whenFalse : Option Item) :
    ofItem manager (.branched name guard whenTrue whenFalse) =
      .branched name (manager.textOf guard) (whenTrue.map (ofItem manager))
        (whenFalse.map (ofItem manager)) := by
  rw [ofItem.eq_def]
  cases whenTrue <;> cases whenFalse <;> rfl

namespace NamedAmount

variable {manager current : Manager}

/-- A term that the table holds comes back from its label. -/
theorem term_label (terms : current.terms = manager.terms) {id : TermId}
    (holds : manager.terms.Holds id) : current.term (manager.terms.label id) = .ok id := by
  obtain ⟨name, found⟩ := holds
  have known := TermTable.nameOf?_eq_some_iff.2 found
  rw [Manager.term, terms, TermTable.label, known, Option.getD_some, found]

/-- An amount is resolved to what it was written from. -/
theorem resolve_ofTermAmount (terms : current.terms = manager.terms) {pair : TermAmount}
    (holds : manager.terms.Holds pair.term) :
    (ofTermAmount manager pair).resolve current = .ok pair := by
  rw [resolve, ofTermAmount, term_label terms holds]
  rfl

/-- Amounts are resolved to what they were written from. -/
theorem resolveAll_ofTermAmount (terms : current.terms = manager.terms) {pairs : List TermAmount}
    (holds : ∀ pair ∈ pairs, manager.terms.Holds pair.term) :
    (pairs.map (ofTermAmount manager)).mapM (·.resolve current) = .ok pairs := by
  induction pairs with
  | nil => rfl
  | cons pair rest ih =>
      rw [List.map_cons, List.mapM_cons, resolve_ofTermAmount terms (holds pair (by simp)),
        ih fun other member => holds other (by simp [member])]
      rfl

end NamedAmount

namespace Builder

variable {builder : Builder} {manager : Manager}

/-- A manager that was built from text in which names and amounts are told apart. -/
structure Reopens (builder : Builder) (manager : Manager) : Prop where
  readable : builder.scope.Readable
  unambiguous : builder.scope.Unambiguous
  builds : builder.Builds manager

namespace Reopens

/-- Every definition of the manager has its own name and is of some text. -/
theorem definition (reopens : builder.Reopens manager) {name : String} {definition : Definition}
    (found : manager.definitions.get? name = some definition) :
    definition.name = name ∧ definition.OfText builder.scope manager.vars := by
  obtain ⟨named, clause, source, expands⟩ :=
    reopens.builds.sound.compiled.definitions name definition found
  exact ⟨named, clause, reopens.readable.sources name clause source, expands⟩

/-- Every tree of named symbols is recovered. -/
theorem recovers (reopens : builder.Reopens manager) {tree : Tree Primitive}
    (named : tree.All (Primitive.Named builder.scope manager.vars)) :
    manager.Recovers builder.scope tree where
  resolver := reopens.unambiguous.resolver
  terms := reopens.builds.terms
  named := named
  clear := named.mono fun _ =>
    Manager.clear_of_unambiguous reopens.unambiguous reopens.builds.terms reopens.builds.macros

/-- A definition from text writes a tree that comes back, and is recovered as its tokens. -/
theorem recovered (reopens : builder.Reopens manager) {definition : Definition}
    (ofText : definition.OfText builder.scope manager.vars) :
    ∃ tree : Tree Primitive, manager.Recovers builder.scope tree ∧
      definition.program = tree.program ∧
      manager.clauseOf definition = ⟨(tree.map manager.tokenOf).tokens⟩ := by
  obtain ⟨clause, readable, expands⟩ := ofText
  obtain ⟨tree, writes, named⟩ := expands.named reopens.readable readable
  exact ⟨tree, reopens.recovers named, writes, manager.clauseOf_program writes⟩

/-- The waypoints and transitions of the manager have their terms. -/
theorem anchored (reopens : builder.Reopens manager) : manager.Anchored where
  named := fun _ _ found => (reopens.definition found).1
  waypoints := reopens.builds.waypoints
  transitions := by
    intro name transition found
    obtain ⟨record, _, named, _, _, _, isTerm, defined⟩ :=
      reopens.builds.transitions name transition found
    exact ⟨named, isTerm, defined⟩

/-- A clause of the reopened builder restates a definition of the manager. -/
theorem clause (reopens : builder.Reopens manager) {name : String} {clause : Clause}
    (source : (ofManager manager).clauses.get? name = some clause) :
    ∃ definition, manager.definitions.get? name = some definition ∧
      manager.clauseOf definition = clause := by
  rw [clauses_ofManager_get? reopens.anchored] at source
  exact Option.map_eq_some_iff.1 source

/-- All clauses of the reopened builder can be read. -/
theorem readable_ofManager (reopens : builder.Reopens manager) :
    (ofManager manager).scope.Readable where
  macros := by
    change manager.macros.Readable
    rw [reopens.builds.macros]
    exact reopens.readable.macros
  sources := by
    intro name clause source
    obtain ⟨definition, found, rfl⟩ := reopens.clause source
    obtain ⟨tree, recovers, _, recovered⟩ := reopens.recovered (reopens.definition found).2
    rw [recovered]
    exact recovers.readable

/-- The text of a guard is read and compiled to a guard that holds when the original does. -/
theorem exists_guard (reopens : builder.Reopens manager) {current : Manager}
    (sound : current.Sound (ofManager manager).scope) {guard : Definition}
    (ofText : guard.OfText builder.scope manager.vars) :
    ∃ other next, Manager.compileText guard.name (manager.textOf guard) current = .ok other next ∧
      ∀ later, next.vars.Precedes later →
        ∀ reading, other.holds later reading = guard.holds manager.vars reading := by
  obtain ⟨tree, recovers, writes, _⟩ := reopens.recovered ofText
  exact recovers.exists_compileText reopens.builds.terms reopens.builds.resolver
    reopens.readable_ofManager.formed sound sound.part.macros writes

/-- The templates of branches are made into branches that do the same. -/
theorem exists_createBranch (reopens : builder.Reopens manager) {branch : Option Item}
    {current : Manager} (sound : current.Sound (ofManager manager).scope)
    (each : ∀ item, branch = some item →
      ∃ other next, (ItemTemplate.ofItem manager item).create current = .ok other next ∧
        ∀ later, next.vars.Precedes later → item.Alike manager.vars later other) :
    ∃ result next, ItemTemplate.createBranch (branch.map (ItemTemplate.ofItem manager)) current =
        .ok result next ∧ next.Sound (ofManager manager).scope ∧ current.GrowsTo next ∧
      ∀ later, next.vars.Precedes later → Item.BranchesAlike manager.vars later branch result := by
  cases branch with
  | none => exact ⟨none, current, rfl, sound, .refl current, fun later _ => ⟨rfl, rfl⟩⟩
  | some item =>
      obtain ⟨other, next, created, alike⟩ := each item rfl
      obtain ⟨_, _, soundNext, grows⟩ :=
        ItemTemplate.create_ok reopens.readable_ofManager.formed sound created
      refine ⟨some other, next, EStateM.map_eq_ok_iff.2 ⟨other, created, rfl⟩, soundNext, grows,
        fun later before => ?_⟩
      have same := alike later before
      exact ⟨same.effectTerms, same.grant⟩

/-- The template of an item is made into an item that does the same. -/
theorem exists_create (reopens : builder.Reopens manager) {item : Item} {current : Manager}
    (grounded : item.Grounded builder.scope manager.vars)
    (sound : current.Sound (ofManager manager).scope) :
    ∃ other next, (ItemTemplate.ofItem manager item).create current = .ok other next ∧
      ∀ later, next.vars.Precedes later → item.Alike manager.vars later other := by
  have holds {id : TermId} (held : builder.scope.terms.Holds id) : manager.terms.Holds id := by
    rw [reopens.builds.terms]
    exact held
  have look {current : Manager} {α : Type} {find : Manager → Except Error α} {found : α}
      (known : find current = .ok found) :
      ItemTemplate.create.lookUp find current = .ok found current :=
    ItemTemplate.lookUp_ok.2 ⟨known, rfl⟩
  induction item generalizing current with
  | bool name term =>
      cases grounded with
      | bool held =>
          refine ⟨_, current, ?_, fun later _ => .refl_of_grant rfl⟩
          rw [ItemTemplate.ofItem, ItemTemplate.create]
          refine EStateM.bind_eq_ok_iff.2 ⟨term, current, look ?_, rfl⟩
          exact NamedAmount.term_label sound.part.terms (holds held)
  | single name effect =>
      cases grounded with
      | single held =>
          refine ⟨_, current, ?_, fun later _ => .refl_of_grant rfl⟩
          rw [ItemTemplate.ofItem, ItemTemplate.create]
          refine EStateM.bind_eq_ok_iff.2 ⟨effect, current, look ?_, rfl⟩
          exact NamedAmount.resolve_ofTermAmount sound.part.terms (holds held)
  | multi name effects =>
      cases grounded with
      | multi held =>
          refine ⟨_, current, ?_, fun later _ => .refl_of_grant rfl⟩
          rw [ItemTemplate.ofItem, ItemTemplate.create]
          refine EStateM.bind_eq_ok_iff.2 ⟨effects, current, look ?_, rfl⟩
          exact NamedAmount.resolveAll_ofTermAmount sound.part.terms
            fun pair member => holds (held pair member)
  | capped name effects cap =>
      cases grounded with
      | capped held heldCap =>
          refine ⟨_, current, ?_, fun later _ => .refl_of_grant rfl⟩
          rw [ItemTemplate.ofItem, ItemTemplate.create]
          refine EStateM.bind_eq_ok_iff.2 ⟨effects, current, look ?_, ?_⟩
          · exact NamedAmount.resolveAll_ofTermAmount sound.part.terms
              fun pair member => holds (held pair member)
          · refine EStateM.bind_eq_ok_iff.2 ⟨cap, current, look ?_, rfl⟩
            exact NamedAmount.resolve_ofTermAmount sound.part.terms (holds heldCap)
  | branched name guard whenTrue whenFalse ihTrue ihFalse =>
      cases grounded with
      | branched named ofText groundedTrue groundedFalse =>
          subst named
          obtain ⟨other, afterGuard, compiled, same⟩ := reopens.exists_guard sound ofText
          obtain ⟨_, _, soundGuard, growsGuard⟩ :=
            Manager.compileText_ok reopens.readable_ofManager.formed sound compiled
          obtain ⟨otherTrue, afterTrue, createdTrue, soundTrue, growsTrue, alikeTrue⟩ :=
            reopens.exists_createBranch soundGuard fun item found =>
              ihTrue item found (groundedTrue item found) soundGuard
          obtain ⟨otherFalse, next, createdFalse, _, growsFalse, alikeFalse⟩ :=
            reopens.exists_createBranch soundTrue fun item found =>
              ihFalse item found (groundedFalse item found) soundTrue
          refine ⟨.branched guard.name other otherTrue otherFalse, next, ?_, fun later before => ?_⟩
          · rw [ItemTemplate.ofItem_branched, ItemTemplate.create_branched]
            refine EStateM.bind_eq_ok_iff.2 ⟨other, afterGuard, compiled, ?_⟩
            refine EStateM.bind_eq_ok_iff.2 ⟨otherTrue, afterTrue, createdTrue, ?_⟩
            exact EStateM.bind_eq_ok_iff.2 ⟨otherFalse, next, createdFalse, rfl⟩
          · have afterFalse := growsFalse.2.trans before
            exact .branched (same later (growsTrue.2.trans afterFalse))
              (alikeTrue later afterFalse) (alikeFalse later before)
  | empty name => exact ⟨_, current, rfl, fun later _ => .refl_of_grant rfl⟩

/-- The items of the manager are made again, each beside the others. -/
theorem exists_addItems (reopens : builder.Reopens manager) {entries : List (String × Item)}
    (distinct : (entries.map Prod.fst).Nodup)
    (each : ∀ entry ∈ entries, entry.2.name = entry.1 ∧
      entry.2.Grounded builder.scope manager.vars)
    {current : Manager} (sound : current.Sound (ofManager manager).scope) :
    ∃ next, addItems current (entries.map fun entry => ItemTemplate.ofItem manager entry.2) =
        .ok next ∧ current.vars.Precedes next.vars ∧
      (∀ name, name ∉ entries.map Prod.fst → next.items.get? name = current.items.get? name) ∧
      ∀ entry ∈ entries, ∃ other, next.items.get? entry.1 = some other ∧
        ∀ later, next.vars.Precedes later → entry.2.Alike manager.vars later other := by
  induction entries generalizing current with
  | nil => exact ⟨current, rfl, .refl _, by simp, by simp⟩
  | cons entry rest ih =>
      rw [List.map_cons, List.nodup_cons] at distinct
      obtain ⟨named, grounded⟩ := each entry (by simp)
      obtain ⟨other, middle, created, alike⟩ := reopens.exists_create grounded sound
      obtain ⟨_, _, soundMiddle, grows⟩ :=
        ItemTemplate.create_ok reopens.readable_ofManager.formed sound created
      have name : other.name = entry.1 := (alike middle.vars (.refl _)).name.trans named
      obtain ⟨next, added, before, others, made⟩ :=
        ih distinct.2 (fun entry member => each entry (by simp [member]))
          (soundMiddle.withItems (middle.items.insert other.name other))
      refine ⟨next, ?_, grows.2.trans before, fun absent missing => ?_, fun found member => ?_⟩
      · rw [List.map_cons, addItems, created]
        exact added
      · rw [List.map_cons, List.mem_cons, not_or] at missing
        rw [others absent missing.2, NameMap.get?_insert, name, if_neg missing.1, grows.1]
      · rcases List.mem_cons.1 member with rfl | later
        · refine ⟨other, ?_, fun later after => alike later (before.trans after)⟩
          rw [others found.1 distinct.1, NameMap.get?_insert, name, if_pos rfl]
        · exact made found later

end Reopens

end Builder

/-- The rebuilt manager says about progression what the original says. -/
structure Manager.Agrees (manager rebuilt : Manager) : Prop where
  terms : rebuilt.terms = manager.terms
  definitionNames : ∀ name, rebuilt.definitions.contains name ↔ manager.definitions.contains name
  waypointNames : ∀ name, rebuilt.waypoints.contains name ↔ manager.waypoints.contains name
  transitionNames : ∀ name, rebuilt.transitions.contains name ↔ manager.transitions.contains name
  itemNames : ∀ name, rebuilt.items.contains name ↔ manager.items.contains name
  definitions : ∀ name first second, manager.definitions.get? name = some first →
    rebuilt.definitions.get? name = some second →
    ∀ reading, second.holds rebuilt.vars reading = first.holds manager.vars reading
  waypoints : ∀ name first second, manager.waypoints.get? name = some first →
    rebuilt.waypoints.get? name = some second → second.term = first.term ∧
      ∀ reading, second.logic.holds rebuilt.vars reading = first.logic.holds manager.vars reading
  transitions : ∀ name first second, manager.transitions.get? name = some first →
    rebuilt.transitions.get? name = some second → second.scene = first.scene ∧
      second.gate = first.gate ∧ second.term = first.term ∧ second.passage = first.passage ∧
      ∀ reading, second.logic.holds rebuilt.vars reading = first.logic.holds manager.vars reading
  items : ∀ name first second, manager.items.get? name = some first →
    rebuilt.items.get? name = some second → second.affectedTerms = first.affectedTerms ∧
      ∀ progression, second.grant rebuilt.vars progression = first.grant manager.vars progression

namespace Builder

variable {builder : Builder} {manager : Manager}

namespace Reopens

/-- The clauses of a reopened manager compile, each to a definition. -/
theorem exists_compileAll (reopens : builder.Reopens manager) :
    ∃ compiled, compileAll (ofManager manager).scope (ofManager manager).clauses.entries ⟨∅, ∅⟩ =
      .ok () compiled := by
  refine Builder.exists_compileAll (fun entry member => ?_) _
  obtain ⟨definition, found, recovered⟩ := reopens.clause (NameMap.get?_of_mem member)
  obtain ⟨tree, recovers, _, written⟩ := reopens.recovered (reopens.definition found).2
  rw [← recovered, written]
  exact recovers.elementary reopens.builds.terms reopens.builds.resolver

/-- The templates of the reopened builder are written from the items. -/
theorem template_values (reopens : builder.Reopens manager) :
    (ofManager manager).templates.values =
      manager.items.entries.map fun entry => ItemTemplate.ofItem manager entry.2 := by
  have entries := NameMap.entries_ofList_values (ItemTemplate.ofItem manager)
    fun name item found => (reopens.builds.items name item found).1
  change (NameMap.ofList _).entries.map Prod.snd = _
  rw [entries, List.map_map]
  rfl

/-- The reopened manager can be built, and every item does what it did. -/
theorem exists_build (reopens : builder.Reopens manager) :
    ∃ rebuilt, (ofManager manager).build = .ok rebuilt ∧
      (∀ name, rebuilt.items.contains name ↔ manager.items.contains name) ∧
      ∀ name item, manager.items.get? name = some item →
        ∃ other, rebuilt.items.get? name = some other ∧
          item.Alike manager.vars rebuilt.vars other := by
  obtain ⟨compiled, compiledAll⟩ := reopens.exists_compileAll
  obtain ⟨waypoints, transitions, addedWaypoints, addedTransitions⟩ :=
    exists_anchors (anchored_ofManager reopens.anchored) compiledAll
  have sound := sound_openWith reopens.readable_ofManager.formed compiledAll waypoints transitions
  have distinct : (manager.items.entries.map Prod.fst).Nodup :=
    manager.items.ascending.imp fun before => String.ne_of_lt before
  obtain ⟨rebuilt, addedItems, _, absent, made⟩ := reopens.exists_addItems distinct
    (fun entry member => reopens.builds.items _ _ (NameMap.get?_of_mem member)) sound
  rw [← reopens.template_values] at addedItems
  have built : (ofManager manager).build = .ok rebuilt := build_eq_ok_iff.2
    ⟨compiled, _, _, rebuilt, compiledAll, addedWaypoints, addedTransitions, addedItems, rfl⟩
  refine ⟨rebuilt, built, fun name => ⟨fun known => ?_, fun known => ?_⟩, fun name item found => ?_⟩
  · by_cases member : name ∈ manager.items.keys
    · exact NameMap.contains_iff_mem_keys.2 member
    · rw [NameMap.contains, absent name member] at known
      cases known
  · obtain ⟨item, found⟩ := NameMap.contains_iff.1 known
    obtain ⟨other, foundOther, _⟩ := made _ (NameMap.mem_of_get? found)
    exact NameMap.contains_iff.2 ⟨other, foundOther⟩
  · obtain ⟨other, foundOther, alike⟩ := made _ (NameMap.mem_of_get? found)
    exact ⟨other, foundOther, alike rebuilt.vars (.refl _)⟩

/-- Definitions of one name have one value in both managers. -/
theorem holds_eq (reopens : builder.Reopens manager) {rebuilt : Manager}
    (builds : (ofManager manager).Builds rebuilt) {name : String} {first second : Definition}
    (found : manager.definitions.get? name = some first)
    (foundSecond : rebuilt.definitions.get? name = some second) (reading : Reading) :
    second.holds rebuilt.vars reading = first.holds manager.vars reading := by
  obtain ⟨named, ofText⟩ := reopens.definition found
  obtain ⟨tree, recovers, writes, recovered⟩ := reopens.recovered ofText
  have source : (ofManager manager).clauses.get? name = some (manager.clauseOf first) := by
    rw [clauses_ofManager_get? reopens.anchored, found]
    rfl
  obtain ⟨other, foundOther, namedOther, expands⟩ := builds.definition source
  obtain rfl := Option.some.inj (foundSecond.symm.trans foundOther)
  rw [recovered] at expands
  have evaluates : first.value manager.vars reading =
      tree.value (Primitive.value (manager.vars.inputs first.name reading)) := by
    rw [Definition.value, writes, Tree.value_program]
  rw [Definition.holds, Definition.holds, recovers.value_eq reopens.builds.terms
    reopens.builds.resolver (namedOther.trans named.symm) evaluates expands]

/-- The rebuilt manager has the definitions of the first. -/
theorem definition_names (reopens : builder.Reopens manager) {rebuilt : Manager}
    (builds : (ofManager manager).Builds rebuilt) (name : String) :
    rebuilt.definitions.contains name ↔ manager.definitions.contains name := by
  rw [builds.definitionNames, NameMap.contains, NameMap.contains,
    clauses_ofManager_get? reopens.anchored, Option.isSome_map]

/-- A rebuilt manager agrees with the first once its items are alike. -/
theorem agrees (reopens : builder.Reopens manager) {rebuilt : Manager}
    (builds : (ofManager manager).Builds rebuilt)
    (itemNames : ∀ name, rebuilt.items.contains name ↔ manager.items.contains name)
    (items : ∀ name item, manager.items.get? name = some item →
      ∃ other, rebuilt.items.get? name = some other ∧
        item.Alike manager.vars rebuilt.vars other) : manager.Agrees rebuilt where
  terms := builds.terms
  definitionNames := reopens.definition_names builds
  waypointNames := by
    intro name
    rw [builds.waypointNames, NameMap.contains_iff_mem_keys,
      waypoint_keys_ofManager reopens.anchored, NameMap.contains_iff_mem_keys]
  transitionNames := by
    intro name
    rw [builds.transitionNames, NameMap.contains_iff_mem_keys,
      transition_keys_ofManager reopens.anchored, NameMap.contains_iff_mem_keys]
  itemNames := itemNames
  definitions := by
    intro name first second found foundSecond
    exact reopens.holds_eq builds found foundSecond
  waypoints := by
    intro name first second found foundSecond
    obtain ⟨term, logic⟩ := reopens.builds.waypoints name first found
    obtain ⟨termSecond, logicSecond⟩ := builds.waypoints name second foundSecond
    rw [builds.terms] at termSecond
    exact ⟨Option.some.inj (termSecond.symm.trans term), reopens.holds_eq builds logic logicSecond⟩
  transitions := by
    intro name first second found foundSecond
    obtain ⟨record, _, _, _, _, _, term, logic⟩ := reopens.builds.transitions name first found
    obtain ⟨source, sourceFound, _, scene, gate, passage, termSecond, logicSecond⟩ :=
      builds.transitions name second foundSecond
    have opened : (ofManager manager).transitions.get? name = some ⟨first.name, first.scene,
        first.gate, manager.textOf first.logic, first.passage⟩ := by
      rw [transitions_ofManager_get? reopens.anchored, found]
      rfl
    obtain rfl := Option.some.inj (sourceFound.symm.trans opened)
    rw [builds.terms] at termSecond
    exact ⟨scene, gate, Option.some.inj (termSecond.symm.trans term), passage,
      reopens.holds_eq builds logic logicSecond⟩
  items := by
    intro name first second found foundSecond
    obtain ⟨other, foundOther, alike⟩ := items name first found
    obtain rfl := Option.some.inj (foundSecond.symm.trans foundOther)
    refine ⟨?_, fun progression => congrFun alike.grant progression⟩
    rw [Item.affectedTerms, Item.affectedTerms, alike.effectTerms]

end Reopens

/-- A manager built by ingestion alone can be opened and built again, and the rebuilt one agrees
with it, where only amounts are variables and no name is ambiguous. -/
theorem exists_rebuild (ingested : builder.Ingested) (unambiguous : builder.scope.Unambiguous)
    (built : builder.build = .ok manager) :
    ∃ rebuilt, (ofManager manager).build = .ok rebuilt ∧ manager.Agrees rebuilt := by
  have readable : builder.scope.Readable := ⟨ingested.readable.1, ingested.readable.2⟩
  have reopens : builder.Reopens manager :=
    ⟨readable, unambiguous, build_ok readable ingested.prefabs built⟩
  obtain ⟨rebuilt, builtAgain, itemNames, items⟩ := reopens.exists_build
  have builds := build_ok reopens.readable_ofManager rfl builtAgain
  exact ⟨rebuilt, builtAgain, reopens.agrees builds itemNames items⟩

/-- The household is built, reopened and built again to a manager that agrees. -/
theorem exists_rebuild_household :
    ∃ manager rebuilt, household.build = .ok manager ∧
      (ofManager manager).build = .ok rebuilt ∧ manager.Agrees rebuilt := by
  obtain ⟨manager, built⟩ := household_builds
  have unambiguous : household.scope.Unambiguous :=
    Scope.unambiguous_of_letters (by cbv) (by decide +kernel) (by decide +kernel)
  obtain ⟨rebuilt, builtAgain, agrees⟩ :=
    exists_rebuild (ingested_ofDocuments _) unambiguous built
  exact ⟨manager, rebuilt, built, builtAgain, agrees⟩

end Builder

end Randomizer
