import Randomizer.Proofs.Logic.Buildable
import Randomizer.Proofs.Logic.Lockstep

/-!
One definition more. It can be compiled late, on a manager that was built without it, or it can be
added to the builder, which is then built again. The first way finds the other definitions compiled
and the second may compile them on the way, but these cannot fail, since they were built before; so
both ways fail alike or succeed alike, and then they give each definition the same value.
-/

namespace Randomizer

open Randomizer.EStateM

namespace Compiled.Sound

variable {scope ambient : Scope} {compiled : Compiled} {name : String}

/-- Without clauses at hand, every definition has been compiled. -/
theorem exists_definition (sound : compiled.Sound scope ambient) (alone : scope.sources = ∅)
    (source : name ∈ ambient.sources.keys) :
    ∃ definition, compiled.definitions.get? name = some definition := by
  rcases sound.complete name source with defined | none
  · exact NameMap.contains_iff.1 defined
  · rw [alone] at none
    exact absurd none (NameMap.not_contains_empty name)

/-- What is defined in a sound state can be followed to its end. -/
theorem founded (sound : compiled.Sound scope ambient) {definition : Definition}
    (found : compiled.definitions.get? name = some definition) :
    ambient.Founded (.definition name) := by
  obtain ⟨_, clause, source, expands⟩ := sound.definitions name definition found
  exact expands.founded source

/-- What cannot be taken apart to its end has not been compiled. -/
theorem undefined (sound : compiled.Sound scope ambient)
    (stuck : ¬ ambient.Founded (.definition name)) : compiled.definitions.get? name = none :=
  Option.eq_none_iff_forall_ne_some.2 fun _ found => stuck (sound.founded found)

end Compiled.Sound

namespace Scope

/-- Only what has a clause at hand can be followed to its end. -/
theorem Founded.mem_keys {scope : Scope} {name : String}
    (founded : scope.Founded (.definition name)) : name ∈ scope.sources.keys :=
  NameMap.mem_keys_iff.2 founded.exists_clause

/-- A definition in progress stays undefined. -/
theorem retains_undefined (scope : Scope) {expanding : List String} {name : String}
    (busy : name ∈ expanding) :
    scope.Retains expanding fun compiled => compiled.definitions.get? name = none where
  register := fun _ _ _ _ _ _ undefined => undefined
  define := by
    intro compiled other program _ free undefined
    have apart : name ≠ other := fun same => free (same ▸ busy)
    rw [NameMap.get?_insert, if_neg apart]
    exact undefined

/-- What a token needs it still needs where more is at hand. -/
theorem Needs.widen {ambient wider : Scope} (part : ambient.PartOf wider) {token : Token}
    {need : Need} (needs : ambient.Needs token need) (steady : token.Steady) :
    wider.Needs token need := by
  induction needs with
  | bare name => exact .bare name
  | left kind left right => exact .left kind left right
  | right kind left right => exact .right kind left right
  | macroName name => exact .macroName name
  | reference target => exact .reference target
  | first resolves _ ih =>
      exact .first ((atomResolves_widen part steady.1).1 resolves) (ih steady.1.steady)
  | second stuck _ ih =>
      exact .second (mt (atomResolves_widen part steady.1).2 stuck) (ih steady.2.steady)

/-- The wider scope has further clauses, all such as text is read as. -/
structure Widens (ambient wider : Scope) : Prop where
  part : ambient.PartOf wider
  formed : wider.Formed
  steady : wider.Steady

/-- The wider scope has the clause of one more definition, and all others in it can be taken apart
to their end. -/
structure Adds (ambient wider : Scope) (name : String) (clause : Clause) : Prop
    extends ambient.Widens wider where
  fresh : name ∉ ambient.sources.keys
  source : wider.sources.get? name = some clause
  others : ∀ target ∈ wider.sources.keys, target ≠ name → target ∈ ambient.sources.keys
  founded : ∀ target ∈ ambient.sources.keys, wider.Founded (.definition target)

/-- The clause that is in progress under the macros needs it, and the definition leads there. -/
def Arises (scope : Scope) (name : String) (inlining : List String) (need : Need) : Prop :=
  ∃ node clause, scope.clauseAt? node = some clause ∧ scope.LeadTo [name] inlining node ∧
    scope.ClauseNeeds clause need

namespace Adds

variable {late ambient wider : Scope} {name : String} {clause : Clause}

/-- States of a late and an early compilation, the early one without the added definition so far. -/
abbrev Awaiting (late ambient wider : Scope) (name : String) : Compiled → Compiled → Prop :=
  Matched late ambient wider wider fun compiled => compiled.definitions.get? name = none

/-- A reference comes out alike where the others are compiled and where they are at hand. -/
theorem reference (adds : ambient.Adds wider name clause) (alone : late.sources = ∅)
    {inlining : List String} {target : String}
    (arises : wider.Arises name inlining (.clause (.definition target)))
    {compiled also : Compiled} (matched : Awaiting late ambient wider name compiled also) :
    Alike (Awaiting late ambient wider name)
      (late.compileToken [name] inlining (.reference target) compiled)
      (wider.compileToken [name] inlining (.reference target) also) := by
  by_cases known : target ∈ ambient.sources.keys
  · obtain ⟨definition, defined⟩ := matched.sound.exists_definition alone known
    obtain ⟨node, holder, found, leads, needs⟩ := arises
    have depends : wider.DependsOn node (.definition target) := ⟨holder, found, needs⟩
    have free : target ∉ [name] := fun same => adds.fresh (List.mem_singleton.1 same ▸ known)
    have founded := adds.founded target known
    obtain ⟨source, foundSource⟩ := founded.exists_clause
    have ready := succeeds_of_founded (.refl wider) adds.formed founded foundSource
      (leads.tail depends).definition also matched.soundOther
    obtain ⟨program, later, ran⟩ := exists_compileToken_reference free
      (.inr ⟨source, foundSource, ready⟩)
    have yields := yields_of_compileToken ran
    have compiles := yields.compiles (.refl wider) adds.formed
      (List.forall_mem_singleton.2 fun _ => trivial) matched.soundOther
    have undefined := (wider.retains_undefined (List.mem_singleton_self name)).yields yields
      matched.kept
    rw [compileToken_reference_of_defined defined, ran]
    exact .ok ⟨matched.sound, compiles.sound, undefined⟩
  · have undefined := matched.sound.undefined (mt Founded.mem_keys known)
    by_cases self : target = name
    · subst self
      have busy := List.mem_singleton_self target
      rw [compileToken_reference_of_busy undefined busy,
        compileToken_reference_of_busy matched.kept busy]
      exact .error _ _ _
    · have free : target ∉ [name] := mt List.mem_singleton.1 self
      have missing : target ∉ wider.sources.keys := fun source =>
        known (adds.others target source self)
      have missingLate : late.sources.get? target = none := by
        rw [alone]
        rfl
      rw [compileToken_reference_of_missing undefined free missingLate,
        compileToken_reference_of_missing
          (matched.soundOther.undefined (mt Founded.mem_keys missing)) free
          (NameMap.get?_eq_none_iff.2 missing)]
      exact .error _ _ _

/-- All clauses but the added one can be followed to their ends without it. -/
theorem founded_of_ne (adds : ambient.Adds wider name clause) {entry : String × Clause}
    (member : entry ∈ wider.sources.entries) (apart : entry.1 ≠ name) :
    wider.Founded (.definition entry.1) :=
  adds.founded entry.1 (adds.others entry.1 (List.mem_map_of_mem member) apart)

section Late

variable (adds : ambient.Adds wider name clause) (part : late.PartOf ambient)
  (alone : late.sources = ∅)

include adds part alone

/-- Late and early compilation take the same steps wherever the added clause leads. -/
theorem lockstep : Lockstep late ambient wider wider [name]
    (fun compiled => compiled.definitions.get? name = none) (wider.Arises name) where
  part := part
  partOther := .refl wider
  widen := adds.part
  steady := (adds.part.steady adds.steady).macros
  retains := wider.retains_undefined (List.mem_singleton_self name)
  macroName := by
    rintro inlining inner ofMacro ⟨node, holder, found, leads, needs⟩ foundMacro need
      ⟨token, member, needsToken⟩
    have depends : wider.DependsOn node (.macroName inner) := ⟨holder, found, needs⟩
    rw [adds.part.macros] at foundMacro
    have steady := adds.steady.macros _ _ foundMacro token member
    exact ⟨.macroName inner, ofMacro, foundMacro, (leads.tail depends).macroName,
      token, member, needsToken.widen adds.part steady⟩
  reference := fun arises matched => adds.reference alone arises matched

/-- The added clause compiles alike late and early. -/
theorem compileClause {compiled also : Compiled}
    (matched : Awaiting late ambient wider name compiled also) :
    Alike (Awaiting late ambient wider name) (late.compileClause name clause compiled)
      (wider.compileClause name clause also) := by
  refine (adds.lockstep part alone).compileClause (fun token member => ?_) matched
  have steady := adds.steady.sources _ _ adds.source token member
  exact ⟨steady, fun need needs => ⟨.definition name, clause, adds.source, .start name,
    token, member, needs.widen adds.part steady⟩⟩

/-- The added clause compiles late just when it can be taken apart to its end. -/
theorem exists_compileClause_iff {compiled : Compiled}
    (sound : compiled.Sound late ambient) :
    (∃ definition next, late.compileClause name clause compiled = .ok definition next) ↔
      wider.Founded (.definition name) := by
  have start := Builder.sound_start wider
  have alike := adds.compileClause part alone ⟨sound, start, rfl⟩
  exact alike.exists_ok_iff.trans
    (exists_compileClause_iff_founded adds.formed adds.source start)

/-- When the added clause fails, the clauses before it compile and leave it undefined, and it fails
when its turn comes. -/
theorem compileAll_of_error {compiled next : Compiled} {error : Error}
    (sound : compiled.Sound late ambient)
    (failed : late.compileClause name clause compiled = .error error next) :
    ∃ later, Builder.compileAll wider wider.sources.entries ⟨∅, ∅⟩ = .error error later := by
  have stuck : ¬ wider.Founded (.definition name) := by
    rw [← adds.exists_compileClause_iff part alone sound, failed]
    nofun
  obtain ⟨before, after, split, apart⟩ := List.lookup_eq_some_iff.1 adds.source
  have among : ∀ entry ∈ before, entry ∈ wider.sources.entries := by
    intro entry member
    rw [split]
    exact List.mem_append_left _ member
  have known : ∀ entry ∈ before, wider.sources.get? entry.1 = some entry.2 :=
    fun entry member => NameMap.get?_of_mem (among entry member)
  have founded : ∀ entry ∈ before, wider.Founded (.definition entry.1) :=
    fun entry member => adds.founded_of_ne (among entry member)
      (bne_iff_ne.1 (apart entry member)).symm
  have start := Builder.sound_start wider
  obtain ⟨middle, compiledBefore⟩ :=
    Builder.exists_compileAll_of_founded adds.formed founded known start
  have soundMiddle := Builder.compileAll_ok adds.formed known start compiledBefore
  -- none of these clauses has needed the added one, so it is compiled from a state without it
  have undefined := soundMiddle.undefined stuck
  obtain ⟨later, also⟩ :=
    (adds.compileClause part alone ⟨sound, soundMiddle, undefined⟩).exists_error failed
  rw [split, Builder.compileAll_append compiledBefore, Builder.compileAll, get_bind_apply]
  simp only [NameMap.contains, undefined, Option.isSome_none, Bool.false_eq_true, if_false]
  exact ⟨later, bind_of_error also⟩

/-- When the added clause compiles, all clauses do. -/
theorem exists_compileAll {compiled next : Compiled} {definition : Definition}
    (sound : compiled.Sound late ambient)
    (ran : late.compileClause name clause compiled = .ok definition next) :
    ∃ after, Builder.compileAll wider wider.sources.entries ⟨∅, ∅⟩ = .ok () after := by
  have own := (adds.exists_compileClause_iff part alone sound).1 ⟨definition, next, ran⟩
  refine Builder.exists_compileAll_of_founded adds.formed (fun entry member => ?_)
    (fun entry member => NameMap.get?_of_mem member) (Builder.sound_start wider)
  by_cases here : entry.1 = name
  · exact here ▸ own
  · exact adds.founded_of_ne member here

end Late

end Adds

/-- What compiled once compiles again with more definitions around: where all of them are compiled,
those that it needs are found again. -/
theorem Widens.lockstep {scope ambient wider : Scope} (widens : ambient.Widens wider)
    (part : scope.PartOf ambient) (alone : scope.sources = ∅) (expanding : List String) :
    Lockstep scope ambient scope wider expanding (fun _ => True) (fun _ => ambient.Meets) where
  part := part
  partOther := part.trans widens.part
  widen := widens.part
  steady := (widens.part.steady widens.steady).macros
  retains := ⟨fun _ _ _ _ _ _ => id, fun _ _ _ _ _ => id⟩
  macroName := fun founded found _ needs => founded.meets found needs
  reference := by
    intro inlining target compiled also founded matched
    obtain ⟨clause, source⟩ := founded.exists_clause
    obtain ⟨definition, defined⟩ :=
      matched.sound.exists_definition alone (NameMap.mem_keys_of_get? source)
    obtain ⟨other, definedOther⟩ := matched.soundOther.exists_definition alone
      (NameMap.mem_keys_of_get? (widens.part.sources target clause source))
    rw [compileToken_reference_of_defined defined, compileToken_reference_of_defined definedOther]
    exact .ok matched

end Scope

/-- A manager and one with further definitions. -/
structure Manager.Beside (ambient wider : Scope) (manager other : Manager) : Prop where
  widens : ambient.Widens wider
  sound : manager.Sound ambient
  soundOther : other.Sound wider

namespace Manager.Beside

variable {ambient wider : Scope} {manager other : Manager}

/-- Managers side by side resolve names alike. -/
theorem scope (beside : Beside ambient wider manager other) : manager.scope = other.scope := by
  have part := beside.sound.part.trans beside.widens.part
  have partOther := beside.soundOther.part
  have terms : manager.terms = other.terms := part.terms.trans partOther.terms.symm
  have macros : manager.macros = other.macros := part.macros.trans partOther.macros.symm
  have resolver : manager.resolver = other.resolver :=
    part.resolver.trans partOther.resolver.symm
  rw [Manager.scope, Manager.scope, terms, macros, resolver]

/-- A clause that compiles on the one compiles on the other. -/
theorem compile (beside : Beside ambient wider manager other) {clause : Clause}
    (formed : clause.Formed) (steady : clause.Steady) (name : String) :
    Follows (Beside ambient wider) (Manager.compile name clause manager)
      (Manager.compile name clause other) := by
  intro definition next ran
  obtain ⟨widens, sound, soundOther⟩ := beside
  obtain ⟨_, expands, soundNext, _⟩ :=
    compile_ok (widens.part.formed widens.formed) sound formed ran
  have same : manager.scope = other.scope := scope ⟨widens, sound, soundOther⟩
  have compiledOther := soundOther.compiled
  rw [← same] at compiledOther
  have alike := (widens.lockstep sound.part rfl [name]).compileClause
    (fun token member => ⟨steady token member, expands.meets token member⟩)
    ⟨sound.compiled, compiledOther, trivial⟩
  obtain ⟨compiled, compiledClause, _⟩ := compile_eq_ok_iff.1 ran
  obtain ⟨again, later, also⟩ := alike.exists_ok_iff.1 ⟨definition, compiled, compiledClause⟩
  rw [same] at also
  have ranOther := compile_eq_ok_iff.2 ⟨later, also, rfl⟩
  obtain ⟨_, _, soundLater, _⟩ := compile_ok widens.formed soundOther formed ranOther
  exact ⟨again, _, ranOther, widens, soundNext, soundLater⟩

/-- Text compiles alike beside the earlier manager, in related states. -/
theorem compileText (beside : Beside ambient wider manager other) (name text : String) :
    Follows (Beside ambient wider) (Manager.compileText name text manager)
      (Manager.compileText name text other) := by
  have same : manager.macros = other.macros := congrArg Scope.macros beside.scope
  cases parsed : manager.macros.parse name text with
  | error error =>
      rw [compileText_of_parse_error parsed]
      exact nofun
  | ok clause =>
      rw [compileText_of_parse parsed, compileText_of_parse (same ▸ parsed)]
      exact beside.compile (MacroTable.readable_of_parseWith parsed).formed
        (MacroTable.steady_of_parseWith parsed) name

/-- A lookup that finds the same in both managers creates the same. -/
theorem lookUp {α : Type} (beside : Beside ambient wider manager other)
    {find : Manager → Except Error α} (same : find manager = find other) :
    Follows (Beside ambient wider) (ItemTemplate.create.lookUp find manager)
      (ItemTemplate.create.lookUp find other) := by
  intro found next ran
  obtain ⟨known, rfl⟩ := ItemTemplate.lookUp_ok.1 ran
  exact ⟨found, other, ItemTemplate.lookUp_ok.2 ⟨same ▸ known, rfl⟩, beside⟩

/-- Names stand for the same terms in managers side by side. -/
theorem term_eq (beside : Beside ambient wider manager other) (name : String) :
    manager.term name = other.term name := by
  have same : manager.terms = other.terms := congrArg Scope.terms beside.scope
  rw [Manager.term, Manager.term, same]

/-- Amounts resolve alike in managers side by side. -/
theorem resolve_eq (beside : Beside ambient wider manager other) :
    NamedAmount.resolve manager = NamedAmount.resolve other := by
  funext named
  rw [NamedAmount.resolve, NamedAmount.resolve, beside.term_eq]

/-- An item that is made on the one is made on the other. -/
theorem create (beside : Beside ambient wider manager other) (template : ItemTemplate) :
    Follows (Beside ambient wider) (template.create manager) (template.create other) := by
  induction template generalizing manager other with
  | bool name term =>
      rw [ItemTemplate.create]
      exact (beside.lookUp (beside.term_eq term)).bind fun _ _ _ _ => follows_pure
  | single name effect =>
      rw [ItemTemplate.create]
      have same := congrFun beside.resolve_eq effect
      exact (beside.lookUp same).bind fun _ _ _ _ => follows_pure
  | multi name effects =>
      rw [ItemTemplate.create]
      have same := congrArg effects.mapM beside.resolve_eq
      exact (beside.lookUp same).bind fun _ _ _ _ => follows_pure
  | capped name effects cap =>
      rw [ItemTemplate.create]
      have same := congrArg effects.mapM beside.resolve_eq
      refine (beside.lookUp same).bind fun _ _ middle otherMiddle kept => ?_
      have sameCap := congrFun kept.resolve_eq cap
      exact (kept.lookUp sameCap).bind fun _ _ _ _ => follows_pure
  | branched name guard whenTrue whenFalse ihTrue ihFalse =>
      have branch {branch : Option ItemTemplate} {manager other : Manager}
          (each : ∀ template, branch = some template →
            Follows (Beside ambient wider) (template.create manager) (template.create other))
          (beside : Beside ambient wider manager other) :
          Follows (Beside ambient wider) (ItemTemplate.createBranch branch manager)
            (ItemTemplate.createBranch branch other) := by
        intro item next ran
        rcases ItemTemplate.createBranch_ok ran with
          ⟨rfl, rfl, rfl⟩ | ⟨template, made, rfl, rfl, created⟩
        · exact ⟨none, other, rfl, beside⟩
        · obtain ⟨again, later, createdOther, kept⟩ := each template rfl made next created
          exact ⟨some again, later, map_eq_ok_iff.2 ⟨again, createdOther, rfl⟩, kept⟩
      rw [ItemTemplate.create_branched]
      refine (beside.compileText name guard).bind fun _ _ _ _ ofGuard => ?_
      refine (branch (fun template found => ihTrue template found ofGuard) ofGuard).bind
        fun _ _ _ _ ofTrue => ?_
      refine (branch (fun template found => ihFalse template found ofTrue) ofTrue).bind
        fun _ _ _ _ ofFalse => ?_
      exact follows_pure ofFalse
  | empty name =>
      rw [ItemTemplate.create]
      exact follows_pure beside

/-- The items that are added to the one can be added to the other. -/
theorem exists_addItems (beside : Beside ambient wider manager other)
    {templates : List ItemTemplate} {next : Manager}
    (added : Builder.addItems manager templates = .ok next) :
    ∃ later, Builder.addItems other templates = .ok later := by
  induction templates generalizing manager other with
  | nil => exact ⟨other, rfl⟩
  | cons template rest ih =>
      rw [Builder.addItems] at added ⊢
      split at added
      · next item middle created =>
        obtain ⟨again, later, createdOther, widens, sound, soundOther⟩ :=
          beside.create template item middle created
        rw [createdOther]
        exact ih ⟨widens, sound.withItems _, soundOther.withItems _⟩ added
      · cases added

end Manager.Beside

/-- What a manager with a definition compiled late and one that was built with it agree on: each
has its definition, with the same value, and the others have the values that they had before. -/
structure Manager.AgreesOnAddition (name : String) (manager next rebuilt : Manager)
    (late : Definition) : Prop where
  named : late.name = name
  added : ∃ early, rebuilt.definitions.get? name = some early ∧
    ∀ reading, early.value rebuilt.vars reading = late.value next.vars reading
  names : ∀ other, rebuilt.definitions.contains other ↔
    other = name ∨ manager.definitions.contains other
  kept : next.definitions = manager.definitions
  others : ∀ other definition, manager.definitions.get? other = some definition →
    (∀ reading, definition.value next.vars reading = definition.value manager.vars reading) ∧
      ∃ again, rebuilt.definitions.get? other = some again ∧
        ∀ reading, again.value rebuilt.vars reading = definition.value manager.vars reading

namespace Builder

variable {builder : Builder} {manager : Manager} {record : LogicRecord} {clause : Clause}

/-- The builder with the clause of one more definition. -/
def withClause (builder : Builder) (name : String) (clause : Clause) : Builder :=
  { builder with clauses := builder.clauses.insert name clause }

/-- A location whose logic parses is added with its clause. -/
theorem addLocation_of_parse
    (parsed : builder.macros.parse record.name record.logic = .ok clause) :
    builder.addLocation record = .ok (builder.withClause record.name clause) := by
  rw [addLocation, parsed]
  rfl

/-- What was built can be taken apart to its end also with one definition more. -/
theorem Builds.adds (builds : builder.Builds manager) {name : String}
    (fresh : ¬ builder.clauses.contains name)
    (ingested : (builder.withClause name clause).Ingested) :
    builder.scope.Adds (builder.withClause name clause).scope name clause := by
  have absent : name ∉ builder.clauses.keys := mt NameMap.contains_iff_mem_keys.2 fresh
  have part : builder.scope.PartOf (builder.withClause name clause).scope := by
    refine ⟨rfl, rfl, rfl, fun other source found => ?_⟩
    have apart : other ≠ name := fun same => absent (same ▸ NameMap.mem_keys_of_get? found)
    exact (NameMap.get?_insert _ _ _ _).trans ((if_neg apart).trans found)
  have steady : (builder.withClause name clause).scope.Steady :=
    ⟨ingested.steady.1, ingested.steady.2⟩
  exact {
    part
    steady
    formed := ingested.scope_readable.formed
    fresh := absent
    source := (NameMap.get?_insert _ _ _ _).trans (if_pos rfl)
    others := by
      intro target known apart
      have held : (builder.clauses.insert name clause).contains target :=
        NameMap.contains_iff_mem_keys.2 known
      rw [NameMap.contains_insert, beq_false_of_ne apart, Bool.false_or] at held
      exact NameMap.contains_iff_mem_keys.1 held
    founded := by
      intro target known
      obtain ⟨source, found⟩ := NameMap.mem_keys_iff.1 known
      obtain ⟨definition, _, _, expands⟩ := builds.definition found
      have steadySource := (part.steady steady).sources target source found
      exact (expands.widen part (part.steady steady) steadySource).founded
        (part.sources target source found) }

/-- With every clause of the wider builder compiled, the items that were made are made again. -/
theorem exists_build_withClause {name : String} (ingested : builder.Ingested)
    (ingestedWider : (builder.withClause name clause).Ingested)
    (widens : builder.scope.Widens (builder.withClause name clause).scope)
    (built : builder.build = .ok manager) {compiled : Compiled}
    (compiledAll : compileAll (builder.withClause name clause).scope
      (builder.withClause name clause).clauses.entries ⟨∅, ∅⟩ = .ok () compiled) :
    ∃ rebuilt, (builder.withClause name clause).build = .ok rebuilt := by
  obtain ⟨before, waypointed, transitioned, itemed, compiledBefore, addedWaypoints,
    addedTransitions, addedItems, _⟩ := build_eq_ok_iff.1 built
  obtain ⟨waypoints, rfl, _, _⟩ := addWaypoints_ok addedWaypoints
  obtain ⟨transitions, rfl, _, _⟩ := addTransitions_ok addedTransitions
  have sound := sound_openWith ingested.scope_readable.formed compiledBefore waypoints transitions
  refine exists_build_of_compileAll ingestedWider.anchored compiledAll
    fun otherWaypoints otherTransitions => ?_
  have soundOther := sound_openWith widens.formed compiledAll otherWaypoints otherTransitions
  exact Manager.Beside.exists_addItems ⟨widens, sound, soundOther⟩ addedItems

/-- Once both have succeeded, they agree. -/
theorem Builds.agreesOnAddition (builds : builder.Builds manager) {name : String}
    (adds : builder.scope.Adds (builder.withClause name clause).scope name clause)
    {rebuilt : Manager} (rebuilds : (builder.withClause name clause).Builds rebuilt)
    {late : Definition} {next : Manager}
    (compiled : Manager.compile name clause manager = .ok late next) :
    manager.AgreesOnAddition name next rebuilt late := by
  have formed := adds.part.formed adds.formed
  have steady := adds.part.steady adds.steady
  have formedClause := adds.formed.sources name clause adds.source
  have steadyClause := adds.steady.sources name clause adds.source
  obtain ⟨named, expandsLate, _, grows⟩ :=
    Manager.compile_ok formed builds.sound formedClause compiled
  exact {
    named
    added := by
      obtain ⟨early, found, namedEarly, expands⟩ := rebuilds.definition adds.source
      refine ⟨early, found, fun reading => ?_⟩
      rw [Definition.value, Definition.value, namedEarly, named]
      exact expands.value_eq (expandsLate.widen adds.part steady steadyClause) name reading
    names := by
      intro other
      rw [rebuilds.definitionNames, builds.definitionNames, withClause, NameMap.contains_insert]
      simp
    kept := by rw [grows.1]
    others := by
      intro other definition found
      obtain ⟨namedOther, source, foundSource, expands⟩ :=
        builds.sound.compiled.definitions other definition found
      have steadySource := steady.sources other source foundSource
      refine ⟨fun reading => ?_, ?_⟩
      · exact (expands.mono grows.2).value_eq expands definition.name reading
      · obtain ⟨again, foundAgain, namedAgain, expandsAgain⟩ :=
          rebuilds.definition (adds.part.sources other source foundSource)
        refine ⟨again, foundAgain, fun reading => ?_⟩
        rw [Definition.value, Definition.value, namedAgain, namedOther]
        exact expandsAgain.value_eq (expands.widen adds.part steady steadySource) other reading }

/-- A definition compiled late and one added before the build fail with the same error, or succeed
and agree. -/
theorem agreesOnAddition_or_error (ingested : builder.Ingested)
    (built : builder.build = .ok manager) (fresh : ¬ builder.clauses.contains record.name) :
    (∃ error next,
      Manager.compileText record.name record.logic manager = .error error next ∧
        (builder.addLocation record >>= build) = .error error) ∨
      ∃ late next rebuilt,
        Manager.compileText record.name record.logic manager = .ok late next ∧
          (builder.addLocation record >>= build) = .ok rebuilt ∧
          manager.AgreesOnAddition record.name next rebuilt late := by
  have builds := build_ok ingested.scope_readable ingested.prefabs built
  cases parsed : builder.macros.parse record.name record.logic with
  | error error =>
      have parsedLate := builds.macros ▸ parsed
      refine .inl ⟨error, manager, Manager.compileText_of_parse_error parsedLate, ?_⟩
      rw [addLocation, parsed]
      rfl
  | ok clause =>
      have parsedLate := builds.macros ▸ parsed
      have added := addLocation_of_parse parsed
      have ingestedWider := ingested.addLocation added
      have adds := builds.adds fresh ingestedWider
      have rebuild : (builder.addLocation record >>= build) =
          (builder.withClause record.name clause).build := by
        rw [added]
        rfl
      rw [Manager.compileText_of_parse parsedLate, rebuild]
      cases late : manager.scope.compileClause record.name clause
          ⟨manager.vars, manager.definitions⟩ with
      | error error compiled =>
          obtain ⟨later, failed⟩ :=
            adds.compileAll_of_error builds.sound.part rfl builds.sound.compiled late
          obtain ⟨next, failedLate⟩ := Manager.compile_of_error late
          exact .inl ⟨error, next, failedLate, build_of_error failed⟩
      | ok definition compiled =>
          obtain ⟨after, compiledAll⟩ :=
            adds.exists_compileAll builds.sound.part rfl builds.sound.compiled late
          obtain ⟨rebuilt, builtAgain⟩ := exists_build_withClause ingested ingestedWider
            adds.toWidens built compiledAll
          have rebuilds :=
            build_ok ingestedWider.scope_readable ingestedWider.prefabs builtAgain
          have compiledLate := Manager.compile_eq_ok_iff.2 ⟨compiled, late, rfl⟩
          exact .inr ⟨definition, _, rebuilt, compiledLate, builtAgain,
            builds.agreesOnAddition adds rebuilds compiledLate⟩

/-- A definition with a reference to one that is compiled already, which refers to another. -/
def annex : LogicRecord := ⟨"C", "*A | (L + N?K)"⟩

/-- The annex is added alike to a household that is built and to one that is not. -/
theorem agreesOnAddition_or_error_annex :
    ∃ manager late next rebuilt, household.build = .ok manager ∧
      ¬ household.clauses.contains annex.name ∧
      Manager.compileText annex.name annex.logic manager = .ok late next ∧
      (household.addLocation annex >>= build) = .ok rebuilt ∧
      manager.AgreesOnAddition annex.name next rebuilt late := by
  obtain ⟨manager, built⟩ := household_builds
  have ingested : household.Ingested := ingested_ofDocuments _
  have fresh : ¬ household.clauses.contains annex.name := by decide +kernel
  have succeeds : (household.addLocation annex >>= build).isOk := by cbv
  rcases agreesOnAddition_or_error ingested built fresh with
    ⟨error, next, _, failed⟩ | ⟨late, next, rebuilt, compiled, added, agrees⟩
  · rw [failed] at succeeds
    cases succeeds
  · exact ⟨manager, late, next, rebuilt, built, fresh, compiled, added, agrees⟩

end Builder

end Randomizer
