import Randomizer.Proofs.Logic.Buildable
import Randomizer.Proofs.Logic.Lockstep

/-!
What the errors of compiling say. A compilation that stops stands at a clause that belongs to the
innermost definition in progress, and everything in progress leads there. So a name or a target that
is missing is missing in the clause of the definition that is named, or in a macro put in place
there, and a name that comes up while it is in progress closes a circle.
-/

namespace Randomizer

open Randomizer.EStateM

namespace Scope

/-- The nodes whose clauses belong to a definition: itself, and the macros that are put in place
there. References are not followed. -/
inductive Owns (scope : Scope) (definition : String) : Node → Prop where
  | own : Owns scope definition (.definition definition)
  | inlined {node : Node} {name : String} : Owns scope definition node →
      scope.DependsOn node (.macroName name) → Owns scope definition (.macroName name)

/-- A clause that belongs to the definition needs it. -/
def Asks (scope : Scope) (definition : String) (need : Need) : Prop :=
  ∃ node clause, scope.Owns definition node ∧ scope.clauseAt? node = some clause ∧
    scope.ClauseNeeds clause need

/-- The errors that are true of the logic. -/
inductive Explains (scope : Scope) : Error → Prop where
  | unresolvedName {definition name : String} : scope.Asks definition (.name name) →
      ¬ scope.Resolves name → Explains scope (.unresolvedName definition name)
  | unknownReference {definition target : String} :
      scope.Asks definition (.clause (.definition target)) → target ∉ scope.sources.keys →
      Explains scope (.unknownReference definition target)
  | circularDefinition {name : String} :
      Relation.TransGen scope.DependsOn (.definition name) (.definition name) →
      Explains scope (.circularReference name)
  | circularMacro {name : String} :
      Relation.TransGen scope.DependsOn (.macroName name) (.macroName name) →
      Explains scope (.circularReference name)

/-- Compilation is at a clause: all that is in progress leads to it, and it belongs to the innermost
definition. -/
structure Visits (scope : Scope) (expanding inlining : List String) (node : Node)
    (clause : Clause) : Prop where
  found : scope.clauseAt? node = some clause
  leads : scope.LeadTo expanding inlining node
  owned : scope.Owns (expanding.headD "") node

namespace Visits

variable {scope : Scope} {expanding inlining : List String} {node : Node} {clause inner : Clause}

/-- Compiling a clause at hand starts at its definition. -/
theorem start {name : String} (source : scope.sources.get? name = some clause) :
    scope.Visits [name] [] (.definition name) clause where
  found := source
  leads := .start name
  owned := .own

/-- A node that is visited depends on what its clause needs. -/
theorem dependsOn (visits : scope.Visits expanding inlining node clause) {other : Node}
    (needs : scope.ClauseNeeds clause (.clause other)) : scope.DependsOn node other :=
  ⟨clause, visits.found, needs⟩

/-- A macro is put in place without a change of the definition in progress. -/
theorem macroName (visits : scope.Visits expanding inlining node clause) {name : String}
    (needs : scope.ClauseNeeds clause (.clause (.macroName name)))
    (found : scope.macros.get? name = some inner) :
    scope.Visits expanding (name :: inlining) (.macroName name) inner where
  found := found
  leads := (visits.leads.tail (visits.dependsOn needs)).macroName
  owned := .inlined visits.owned (visits.dependsOn needs)

/-- The target of a reference becomes the definition in progress, under the same macros. -/
theorem reference (visits : scope.Visits expanding inlining node clause) {target : String}
    (needs : scope.ClauseNeeds clause (.clause (.definition target)))
    (source : scope.sources.get? target = some inner) :
    scope.Visits (target :: expanding) inlining (.definition target) inner where
  found := source
  leads := (visits.leads.tail (visits.dependsOn needs)).definition
  owned := .own

/-- The definition in progress asks for what the clause that is visited needs. -/
theorem asks (visits : scope.Visits expanding inlining node clause) {need : Need}
    (needs : scope.ClauseNeeds clause need) : scope.Asks (expanding.headD "") need :=
  ⟨node, clause, visits.owned, visits.found, needs⟩

/-- A macro that is needed while it is put in line is on a cycle. -/
theorem circularMacro (visits : scope.Visits expanding inlining node clause) {name : String}
    (needs : scope.ClauseNeeds clause (.clause (.macroName name))) (busy : name ∈ inlining) :
    scope.Explains (.circularReference name) := by
  have back := visits.leads.inlining name busy
  exact .circularMacro (Relation.TransGen.tail' back (visits.dependsOn needs))

/-- A definition that is needed while it is in progress is on a cycle. -/
theorem circularDefinition (visits : scope.Visits expanding inlining node clause)
    {target : String} (needs : scope.ClauseNeeds clause (.clause (.definition target)))
    (busy : target ∈ expanding) : scope.Explains (.circularReference target) := by
  have back := visits.leads.expanding target busy
  exact .circularDefinition (Relation.TransGen.tail' back (visits.dependsOn needs))

end Visits

section Errors

variable {scope : Scope} {compiled next : Compiled} {error : Error}

/-- A name stops compilation only when it does not resolve. -/
theorem compileName_error {definition name : String} (sound : compiled.Sound scope scope)
    (failed : scope.compileName definition name compiled = .error error next) :
    error = .unresolvedName definition name ∧ ¬ scope.Resolves name := by
  have stuck : ¬ scope.Resolves name := by
    intro resolves
    obtain ⟨_, _, ran⟩ := exists_compileName resolves definition compiled
    rw [ran] at failed
    cases failed
  rw [compileName_of_not_resolves stuck (.refl scope) sound] at failed
  cases failed
  exact ⟨rfl, stuck⟩

/-- The error of a name tells of a name that does not resolve and of the definition that asks for
it. -/
theorem Visits.unresolved {expanding inlining : List String} {node : Node} {clause : Clause}
    (visits : scope.Visits expanding inlining node clause) {name : String}
    (needs : scope.ClauseNeeds clause (.name name)) (sound : compiled.Sound scope scope)
    (failed : scope.compileName (expanding.headD "") name compiled = .error error next) :
    scope.Explains error := by
  obtain ⟨rfl, stuck⟩ := compileName_error sound failed
  exact .unresolvedName (visits.asks needs) stuck

/-- Wherever compilation stops, its error is true. The induction follows the steps of compiling, and
every token comes with the clause that compilation is at; the state before each token is sound, so
that a fallback takes the branch that it counts as. -/
theorem Fails.explains (formed : scope.Formed) (known : scope.MacrosKnown)
    {expanding inlining : List String} {tokens : List Token} {node : Node} {clause : Clause}
    (fails : scope.Fails expanding inlining tokens compiled error next)
    (visits : scope.Visits expanding inlining node clause)
    (atoms : ∀ token ∈ tokens, token.isConnective = false → token.IsAtom)
    (needs : ∀ token ∈ tokens, ∀ need, scope.Needs token need → scope.ClauseNeeds clause need)
    (sound : compiled.Sound scope scope) : scope.Explains error := by
  induction fails generalizing node clause with
  | bare stuck =>
      exact visits.unresolved (needs _ List.mem_cons_self _ (.bare _)) sound stuck
  | left stuck =>
      exact visits.unresolved (needs _ List.mem_cons_self _ (.left _ _ _)) sound stuck
  | right named stuck =>
      obtain ⟨_, _, _, soundMiddle, _⟩ := compileName_ok (.refl scope) sound named
      exact visits.unresolved (needs _ List.mem_cons_self _ (.right _ _ _)) soundMiddle stuck
  | circularMacro busy =>
      exact visits.circularMacro (needs _ List.mem_cons_self _ (.macroName _)) busy
  | unknownMacro _ missing =>
      have need := needs _ List.mem_cons_self _ (.macroName _)
      exact absurd (known node clause _ visits.found need) (NameMap.get?_eq_none_iff.1 missing)
  | macroName _ found _ ih =>
      have need := needs _ List.mem_cons_self _ (.macroName _)
      exact ih (visits.macroName need found) (formed.macros _ _ found).token
        (fun token member _ inner => ⟨token, member, inner⟩) sound
  | circularReference busy =>
      exact visits.circularDefinition (needs _ List.mem_cons_self _ (.reference _)) busy
  | unknownReference missing =>
      have need := needs _ List.mem_cons_self _ (.reference _)
      exact .unknownReference (visits.asks need) (NameMap.get?_eq_none_iff.1 missing)
  | reference _ source _ ih =>
      have need := needs _ List.mem_cons_self _ (.reference _)
      exact ih (visits.reference need source) (formed.sources _ _ source).token
        (fun token member _ inner => ⟨token, member, inner⟩) sound
  | first taken _ ih =>
      obtain ⟨isAtom, _⟩ := atoms _ List.mem_cons_self rfl
      have ofFirst := (resolves_iff (.refl scope) sound).1 taken
      exact ih visits (List.forall_mem_singleton.2 fun _ => isAtom)
        (List.forall_mem_singleton.2 fun need inner =>
          needs _ List.mem_cons_self need (.first ofFirst inner)) sound
  | second passed _ ih =>
      obtain ⟨_, isAtom⟩ := atoms _ List.mem_cons_self rfl
      have ofSecond := mt (resolves_iff (.refl scope) sound).2 passed
      exact ih visits (List.forall_mem_singleton.2 fun _ => isAtom)
        (List.forall_mem_singleton.2 fun need inner =>
          needs _ List.mem_cons_self need (.second ofSecond inner)) sound
  | head _ ih =>
      exact ih visits (List.forall_mem_singleton.2 (atoms _ List.mem_cons_self))
        (List.forall_mem_singleton.2 (needs _ List.mem_cons_self)) sound
  | tail yields _ ih =>
      obtain ⟨atomsHead, atomsTail⟩ := List.forall_mem_cons.1 atoms
      have compiles := yields.compiles (.refl scope) formed
        (List.forall_mem_singleton.2 atomsHead) sound
      exact ih visits atomsTail (List.forall_mem_cons.1 needs).2 compiles.sound

/-- The error of a clause tells what is wrong. -/
theorem explains_of_compileClause (formed : scope.Formed) (known : scope.MacrosKnown)
    {name : String} {clause : Clause} (source : scope.sources.get? name = some clause)
    (sound : compiled.Sound scope scope)
    (failed : scope.compileClause name clause compiled = .error error next) :
    scope.Explains error := by
  rcases bind_eq_error_iff.1 failed with failedTokens | ⟨_, _, _, returned⟩
  · exact (fails_of_compileTokens failedTokens).explains formed known (.start source)
      (formed.sources name clause source).token
      (fun token member _ inner => ⟨token, member, inner⟩) sound
  · cases returned

end Errors

end Scope

namespace Builder

open Scope

/-- The first clause that does not compile stops the work, and its error is true. -/
theorem explains_of_compileAll {scope : Scope} (formed : scope.Formed)
    (known : scope.MacrosKnown) {entries : List (String × Clause)}
    (sources : ∀ entry ∈ entries, scope.sources.get? entry.1 = some entry.2)
    {compiled next : Compiled} {error : Error} (sound : compiled.Sound scope scope)
    (failed : compileAll scope entries compiled = .error error next) : scope.Explains error := by
  induction entries generalizing compiled with
  | nil => cases failed
  | cons entry rest ih =>
      obtain ⟨name, clause⟩ := entry
      have source := sources (name, clause) List.mem_cons_self
      have others {middle : Compiled} (soundMiddle : middle.Sound scope scope) :
          compileAll scope rest middle = .error error next → scope.Explains error :=
        ih (fun entry member => sources entry (List.mem_cons_of_mem _ member)) soundMiddle
      rw [compileAll, get_bind_apply] at failed
      split at failed
      · exact others sound failed
      · rcases bind_eq_error_iff.1 failed with failedClause | ⟨definition, middle, ran, continued⟩
        · exact explains_of_compileClause formed known source sound failedClause
        · obtain ⟨rfl, soundMiddle, _, expands⟩ := compileClause_ok (.refl scope) formed
            (formed.sources name clause source) sound ran
          rcases bind_eq_error_iff.1 continued with inserted | ⟨_, _, inserted, failedRest⟩
          · cases inserted
          · cases inserted
            exact others (soundMiddle.define source expands) failedRest

/-- A builder without templates that cannot be built says so truly: a name that does not resolve or
a target that is not there is mentioned in the clause of the definition that is blamed, or in a
macro put in place there, and what is called circular leads back to itself. -/
theorem explains_of_build {builder : Builder} (ingested : builder.Ingested)
    (noTemplates : builder.templates = ∅) {error : Error} (failed : builder.build = .error error) :
    builder.scope.Explains error := by
  have formed : builder.scope.Formed :=
    Readable.formed ⟨ingested.readable.1, ingested.readable.2⟩
  cases ran : compileAll builder.scope builder.clauses.entries ⟨∅, ∅⟩ with
  | error cause compiled =>
      have same : Except.error cause = Except.error error := (build_of_error ran).symm.trans failed
      cases same
      exact explains_of_compileAll formed ingested.macrosKnown.scope
        (fun entry member => NameMap.get?_of_mem member) (sound_start builder.scope) ran
  | ok _ compiled =>
      obtain ⟨manager, built⟩ := exists_build_of_compileAll ingested.anchored ran fun _ _ => by
        rw [noTemplates]
        exact ⟨_, rfl⟩
      rw [built] at failed
      cases failed

/-- The first definition refers to one whose fallback takes a macro, and the name that is missing
stands in another macro. -/
def ruin : Builder := ofDocuments [
  .terms ["K"],
  .macros (.ofList [("M", "K | N"), ("N", "Lost > K")]),
  .locations [⟨"A", "K + *B"⟩, ⟨"B", "M?K"⟩]]

/-- A clause with a name that nothing resolves explains the error of the build. -/
theorem explains_of_build_ruin :
    ruin.templates = ∅ ∧ ruin.build = .error (.unresolvedName "B" "Lost") ∧
      ruin.scope.Asks "B" (.name "Lost") ∧ ¬ ruin.scope.Resolves "Lost" := by
  have noTemplates : ruin.templates = ∅ := NameMap.eq_empty_iff.2 (by decide +kernel)
  have failed : ruin.build = .error (.unresolvedName "B" "Lost") := by cbv
  cases explains_of_build (ingested_ofDocuments _) noTemplates failed with
  | unresolvedName asks stuck => exact ⟨noTemplates, failed, asks, stuck⟩

end Builder

end Randomizer
