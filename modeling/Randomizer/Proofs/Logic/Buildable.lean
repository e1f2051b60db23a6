import Randomizer.Proofs.Logic.Anchoring
import Randomizer.Proofs.Logic.Dependency

/-!
When building succeeds. A clause compiles exactly when it can be taken apart to its end: the
definitions and macros in progress all lead to the clause that is compiled, so without circles none
of them comes up again, and compiling cannot stop for any other reason than a name or a target that
is not there. A builder without templates can be built just when its logic is self-contained.
-/

namespace Randomizer

namespace Scope

variable {scope ambient : Scope}

/-- All definitions and macros in progress lead to the node. -/
structure LeadTo (scope : Scope) (expanding inlining : List String) (node : Node) : Prop where
  expanding : ∀ name ∈ expanding, Relation.ReflTransGen scope.DependsOn (.definition name) node
  inlining : ∀ name ∈ inlining, Relation.ReflTransGen scope.DependsOn (.macroName name) node

namespace LeadTo

variable {expanding inlining : List String} {node other : Node}

/-- What leads to a node leads to all that the node needs. -/
theorem tail (leads : scope.LeadTo expanding inlining node) (depends : scope.DependsOn node other) :
    scope.LeadTo expanding inlining other where
  expanding := fun name member => (leads.expanding name member).tail depends
  inlining := fun name member => (leads.inlining name member).tail depends

/-- A definition that is come to can be taken in progress. -/
theorem definition {name : String} (leads : scope.LeadTo expanding inlining (.definition name)) :
    scope.LeadTo (name :: expanding) inlining (.definition name) where
  expanding := List.forall_mem_cons.2 ⟨.refl, leads.expanding⟩
  inlining := leads.inlining

/-- A macro that is come to can be put in line. -/
theorem macroName {name : String} (leads : scope.LeadTo expanding inlining (.macroName name)) :
    scope.LeadTo expanding (name :: inlining) (.macroName name) where
  expanding := leads.expanding
  inlining := List.forall_mem_cons.2 ⟨.refl, leads.inlining⟩

/-- Each definition leads to itself. -/
theorem start (name : String) : scope.LeadTo [name] [] (.definition name) where
  expanding := List.forall_mem_singleton.2 .refl
  inlining := List.forall_mem_nil _

/-- A definition in progress that the clause mentions would close a circle. -/
theorem target_notMem (leads : scope.LeadTo expanding inlining node) (founded : scope.Founded node)
    {target : String} (depends : scope.DependsOn node (.definition target)) :
    target ∉ expanding := by
  intro busy
  exact founded.acyclic (Relation.TransGen.head' depends (leads.expanding target busy))

/-- A node that can be followed to its end needs no macro that led to it. -/
theorem macro_notMem (leads : scope.LeadTo expanding inlining node) (founded : scope.Founded node)
    {name : String} (depends : scope.DependsOn node (.macroName name)) : name ∉ inlining := by
  intro busy
  exact founded.acyclic (Relation.TransGen.head' depends (leads.inlining name busy))

end LeadTo

/-- The tokens compile in every sound state. -/
def Succeeds (scope ambient : Scope) (expanding inlining : List String) (tokens : List Token) :
    Prop :=
  ∀ compiled : Compiled, compiled.Sound scope ambient →
    ∃ program next, scope.compileTokens expanding inlining tokens compiled = .ok program next

/-- A reference compiles when its target is compiled already, or is not in progress and compiles. -/
theorem exists_compileToken_reference {expanding inlining : List String} {target : String}
    {compiled : Compiled} (free : target ∉ expanding)
    (ready : compiled.definitions.contains target ∨
      ∃ clause, scope.sources.get? target = some clause ∧ ∃ program next,
        scope.compileTokens (target :: expanding) inlining clause.tokens compiled =
          .ok program next) :
    ∃ program next, scope.compileToken expanding inlining (.reference target) compiled =
      .ok program next := by
  cases defined : compiled.definitions.get? target with
  | some definition => exact ⟨_, _, compileToken_reference_of_defined defined⟩
  | none =>
      rcases ready with known | ⟨clause, found, program, next, compiledClause⟩
      · rw [NameMap.contains, defined] at known
        cases known
      · rw [compileToken_reference_of_source defined free found]
        let defined : Compiled :=
          { next with definitions := next.definitions.insert target ⟨target, program⟩ }
        refine ⟨program, defined, ?_⟩
        exact EStateM.bind_of_ok compiledClause

section Clause

variable {expanding inlining : List String} {node : Node} {clause : Clause}

/-- A token of a founded clause compiles when the clauses that it depends on do. -/
theorem exists_compileToken_of_needs (part : scope.PartOf ambient)
    (founded : ambient.Founded node) (found : ambient.clauseAt? node = some clause)
    (leads : ambient.LeadTo expanding inlining node)
    (others : ∀ other, ambient.ClauseNeeds clause (.clause other) →
      ∀ {clause expanding inlining}, ambient.clauseAt? other = some clause →
        ambient.LeadTo expanding inlining other →
        scope.Succeeds ambient expanding inlining clause.tokens)
    {token : Token} (needs : ∀ need, ambient.Needs token need → ambient.ClauseNeeds clause need)
    {compiled : Compiled} (sound : compiled.Sound scope ambient) :
    ∃ program next, scope.compileToken expanding inlining token compiled = .ok program next := by
  have resolves {name : String} (need : ambient.Needs token (.name name)) :
      scope.Resolves name :=
    part.resolves.2 (founded.resolves found (needs _ need))
  induction token with
  | connective | constant =>
      apply exists_compileToken
      trivial
  | bare name =>
      apply exists_compileToken
      exact resolves (.bare name)
  | comparison kind left right =>
      apply exists_compileToken
      exact ⟨resolves (.left kind left right), resolves (.right kind left right)⟩
  | macroName name =>
      have need := needs _ (.macroName name)
      have depends : ambient.DependsOn node (.macroName name) := ⟨clause, found, need⟩
      obtain ⟨inner, foundInner⟩ := (founded.of_dependsOn depends).exists_clause
      have foundHere : scope.macros.get? name = some inner := by
        rw [part.macros]
        exact foundInner
      rw [compileToken_macroName (leads.macro_notMem founded depends) foundHere]
      exact others _ need foundInner (leads.tail depends).macroName compiled sound
  | reference target =>
      have need := needs _ (.reference target)
      have depends : ambient.DependsOn node (.definition target) := ⟨clause, found, need⟩
      obtain ⟨inner, foundInner⟩ := (founded.of_dependsOn depends).exists_clause
      apply exists_compileToken_reference (leads.target_notMem founded depends)
      refine (sound.complete target (NameMap.mem_keys_of_get? foundInner)).imp_right fun known => ?_
      obtain ⟨source, foundSource⟩ := NameMap.contains_iff.1 known
      exact ⟨source, foundSource, others _ need (part.sources target source foundSource)
        (leads.tail depends).definition compiled sound⟩
  | fallback first second ihFirst ihSecond =>
      rw [compileToken, EStateM.get_bind_apply]
      by_cases taken : scope.resolves compiled first
      · have ofFirst := (resolves_iff part sound).1 taken
        rw [if_pos taken]
        exact ihFirst (fun need inner => needs need (.first ofFirst inner))
          fun need => resolves (.first ofFirst need)
      · have ofSecond := mt (resolves_iff part sound).2 taken
        rw [if_neg taken]
        exact ihSecond (fun need inner => needs need (.second ofSecond inner))
          fun need => resolves (.second ofSecond need)

/-- A clause that can be taken apart to its end compiles. The induction is on taking it apart, and
what is in progress always leads to the clause at hand. -/
theorem succeeds_of_founded (part : scope.PartOf ambient) (formed : ambient.Formed)
    (founded : ambient.Founded node) (found : ambient.clauseAt? node = some clause)
    (leads : ambient.LeadTo expanding inlining node) :
    scope.Succeeds ambient expanding inlining clause.tokens := by
  induction founded generalizing clause expanding inlining with
  | @intro node own foundOwn names others ih =>
      obtain rfl := Option.some.inj (found.symm.trans foundOwn)
      have atoms : ∀ token ∈ clause.tokens, token.isConnective = false → token.IsAtom := by
        cases node with
        | definition name => exact (formed.sources name clause found).token
        | macroName name => exact (formed.macros name clause found).token
      have each (token : Token) (member : token ∈ clause.tokens) {compiled : Compiled}
          (sound : compiled.Sound scope ambient) : ∃ program next,
            scope.compileToken expanding inlining token compiled = .ok program next :=
        exists_compileToken_of_needs part (.intro found names others) found leads
          (fun other need _ _ _ foundOther leadsOther => ih other need foundOther leadsOther)
          (fun need needs => ⟨token, member, needs⟩) sound
      have run (tokens : List Token) (among : ∀ token ∈ tokens, token ∈ clause.tokens) :
          scope.Succeeds ambient expanding inlining tokens := by
        intro compiled sound
        induction tokens generalizing compiled with
        | nil =>
            rw [compileTokens.eq_def]
            exact ⟨_, _, rfl⟩
        | cons token rest ihRest =>
            have member := among token (by simp)
            obtain ⟨symbols, middle, compiledToken⟩ := each token member sound
            have compiles := (yields_of_compileToken compiledToken).compiles part formed
              (List.forall_mem_singleton.2 (atoms token member)) sound
            obtain ⟨later, next, compiledRest⟩ :=
              ihRest (fun other inRest => among other (by simp [inRest])) middle compiles.sound
            rw [compileTokens.eq_def]
            refine ⟨symbols ++ later, next, ?_⟩
            refine EStateM.bind_eq_ok_iff.2 ⟨symbols, middle, compiledToken, ?_⟩
            exact EStateM.bind_eq_ok_iff.2 ⟨later, next, compiledRest, rfl⟩
      exact run clause.tokens fun _ => id

end Clause

/-- With nothing in progress, a clause compiles just when it can be taken apart to its end. -/
theorem exists_compileClause_iff_founded {name : String} {clause : Clause} {compiled : Compiled}
    (formed : scope.Formed) (source : scope.sources.get? name = some clause)
    (sound : compiled.Sound scope scope) :
    (∃ definition next, scope.compileClause name clause compiled = .ok definition next) ↔
      scope.Founded (.definition name) := by
  constructor
  · rintro ⟨definition, next, ran⟩
    obtain ⟨_, _, _, expands⟩ :=
      compileClause_ok (.refl scope) formed (formed.sources name clause source) sound ran
    exact expands.founded source
  · intro founded
    obtain ⟨program, next, compiledTokens⟩ :=
      succeeds_of_founded (.refl scope) formed founded source (.start name) compiled sound
    exact ⟨⟨name, program⟩, next, EStateM.bind_eq_ok_iff.2 ⟨program, next, compiledTokens, rfl⟩⟩

/-- A macro that a token needs is one that the token names. -/
theorem Needs.macro_known {isMacro : String → Bool} {token : Token} {name : String}
    (needs : scope.Needs token (.clause (.macroName name))) (known : token.MacrosIn isMacro) :
    isMacro name := by
  generalize same : Need.clause (.macroName name) = need at needs
  induction needs with
  | bare | left | right | reference => cases same
  | macroName other =>
      cases same
      exact known
  | first _ _ ih => exact ih known.1 same
  | second _ _ ih => exact ih known.2 same

end Scope

namespace Builder

/-- What a builder's clauses mention, they mention in its macro table. -/
theorem MacrosKnown.scope {builder : Builder} (known : builder.MacrosKnown) :
    builder.scope.MacrosKnown := by
  intro node clause name found needs
  obtain ⟨token, member, needsToken⟩ := needs
  have macrosIn : clause.MacrosIn builder.macros.contains := by
    cases node with
    | definition other => exact known.2 other clause found
    | macroName other => exact known.1 other clause found
  exact NameMap.contains_iff_mem_keys.1 (needsToken.macro_known (macrosIn token member))

/-- Clauses that can be followed to their ends compile one after another. -/
theorem exists_compileAll_of_founded {scope : Scope} (formed : scope.Formed)
    {entries : List (String × Clause)}
    (founded : ∀ entry ∈ entries, scope.Founded (.definition entry.1))
    (sources : ∀ entry ∈ entries, scope.sources.get? entry.1 = some entry.2)
    {compiled : Compiled} (sound : compiled.Sound scope scope) :
    ∃ next, compileAll scope entries compiled = .ok () next := by
  induction entries generalizing compiled with
  | nil => exact ⟨compiled, rfl⟩
  | cons entry rest ih =>
      obtain ⟨name, clause⟩ := entry
      have source := sources (name, clause) (by simp)
      have others {middle : Compiled} : middle.Sound scope scope →
          ∃ next, compileAll scope rest middle = .ok () next :=
        ih (fun entry member => founded entry (List.mem_cons_of_mem _ member))
          fun entry member => sources entry (List.mem_cons_of_mem _ member)
      rw [compileAll, EStateM.get_bind_apply]
      cases known : compiled.definitions.contains name with
      | true =>
          simp only [if_true]
          exact others sound
      | false =>
          simp only [Bool.false_eq_true, if_false]
          obtain ⟨definition, middle, compiledClause⟩ :=
            (Scope.exists_compileClause_iff_founded formed source sound).2
              (founded (name, clause) (by simp))
          obtain ⟨rfl, soundMiddle, _, expands⟩ := Scope.compileClause_ok (.refl _) formed
            (formed.sources name clause source) sound compiledClause
          obtain ⟨next, compiledRest⟩ := others (soundMiddle.define source expands)
          refine ⟨next, EStateM.bind_eq_ok_iff.2 ⟨definition, middle, compiledClause, ?_⟩⟩
          exact EStateM.bind_eq_ok_iff.2 ⟨(), _, rfl, compiledRest⟩

/-- A builder without templates can be built just when its logic is self-contained: no definition
leads to a circle of definitions and macros, every target is there, and every name resolves. -/
theorem exists_build_iff {builder : Builder} (ingested : builder.Ingested)
    (noTemplates : builder.templates = ∅) :
    (∃ manager, builder.build = .ok manager) ↔ builder.scope.SelfContained := by
  have formed : builder.scope.Formed :=
    Scope.Readable.formed ⟨ingested.readable.1, ingested.readable.2⟩
  rw [Scope.selfContained_iff_founded ingested.macrosKnown.scope]
  constructor
  · rintro ⟨manager, built⟩ name member
    obtain ⟨clause, source⟩ := NameMap.mem_keys_iff.1 member
    obtain ⟨_, _, _, expands⟩ :=
      (builds_of_build formed ingested.prefabs built).definition source
    exact expands.founded source
  · intro founded
    obtain ⟨compiled, compiledAll⟩ : ∃ next,
        compileAll builder.scope builder.clauses.entries ⟨∅, ∅⟩ = .ok () next :=
      exists_compileAll_of_founded formed
        (fun entry member => founded entry.1 (List.mem_map_of_mem member))
        (fun entry member => NameMap.get?_of_mem member) (sound_start builder.scope)
    refine exists_build_of_compileAll ingested.anchored compiledAll fun _ _ => ?_
    rw [noTemplates]
    exact ⟨_, rfl⟩

/-- A circle through a definition and a macro, with a definition that leads into it. -/
def knot : Builder := ofDocuments [
  .terms ["K"],
  .macros (.ofList [("M", "*A | K")]),
  .locations [⟨"A", "K + M"⟩, ⟨"B", "*A?K"⟩]]

/-- The knot has no templates, and it does not build. -/
theorem exists_build_iff_knot :
    knot.templates = ∅ ∧ ¬ ∃ manager, knot.build = .ok manager := by
  have noTemplates : knot.templates = ∅ := NameMap.eq_empty_iff.2 (by decide +kernel)
  refine ⟨noTemplates, fun buildable => ?_⟩
  have contained : knot.scope.SelfContained :=
    (exists_build_iff (ingested_ofDocuments _) noTemplates).1 buildable
  have clauseA : knot.scope.clauseAt? (.definition "A") =
      some ⟨[.bare "K", .macroName "M", .connective .and]⟩ := by decide +kernel
  have clauseM : knot.scope.clauseAt? (.macroName "M") =
      some ⟨[.reference "A", .bare "K", .connective .or]⟩ := by decide +kernel
  have toM : knot.scope.DependsOn (.definition "A") (.macroName "M") :=
    ⟨_, clauseA, .macroName "M", by simp, .macroName "M"⟩
  have toA : knot.scope.DependsOn (.macroName "M") (.definition "A") :=
    ⟨_, clauseM, .reference "A", by simp, .reference "A"⟩
  have reached : knot.scope.Reached (.definition "A") :=
    ⟨"A", NameMap.mem_keys_of_get? clauseA, .refl⟩
  exact contained.acyclic _ reached (.head toM (.single toA))

end Builder

end Randomizer
