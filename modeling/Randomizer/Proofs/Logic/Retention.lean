import Randomizer.Proofs.Logic.Compilation

/-!
What compiling keeps. Whichever token it comes to and wherever it stops, the state changes only by
variables that the resolver finds and by definitions of clauses at hand that are not in progress.
Definitions are never taken away, and where no clause is at hand they stay as they are.
-/

namespace Randomizer

open Randomizer.EStateM

namespace Scope

variable {scope : Scope} {expanding : List String} {keep : Compiled → Prop}

/-- What registering a variable keeps, and adding a definition that is not in progress. -/
structure Retains (scope : Scope) (expanding : List String) (keep : Compiled → Prop) : Prop where
  register : ∀ compiled name quantity, scope.terms.idOf? name = none →
    compiled.vars.codeOf? name = none → scope.resolver scope.terms name = some quantity →
    keep compiled → keep { compiled with vars := compiled.vars.register name quantity }
  define : ∀ compiled name program, scope.sources.contains name → name ∉ expanding →
    keep compiled →
    keep { compiled with definitions := compiled.definitions.insert name ⟨name, program⟩ }

namespace Retains

/-- With another definition in progress there is less that can be added. -/
theorem expand (retains : scope.Retains expanding keep) {name : String} :
    scope.Retains (name :: expanding) keep where
  register := retains.register
  define := fun compiled other program source free =>
    retains.define compiled other program source (List.not_mem_of_not_mem_cons free)

/-- Two properties that are retained are so together. -/
theorem and {other : Compiled → Prop} (retains : scope.Retains expanding keep)
    (retainsOther : scope.Retains expanding other) :
    scope.Retains expanding fun compiled => keep compiled ∧ other compiled where
  register := fun compiled name quantity notTerm fresh matched kept =>
    ⟨retains.register compiled name quantity notTerm fresh matched kept.1,
      retainsOther.register compiled name quantity notTerm fresh matched kept.2⟩
  define := fun compiled name program source free kept =>
    ⟨retains.define compiled name program source free kept.1,
      retainsOther.define compiled name program source free kept.2⟩

/-- A name that is compiled registers a variable at most. -/
theorem compileName (retains : scope.Retains expanding keep) (definition name : String) :
    Keeps (scope.compileName definition name) keep := by
  intro start kept
  unfold ending Scope.compileName
  cases found : scope.terms.idOf? name with
  | some id => exact kept
  | none =>
      simp only [get_bind_apply]
      cases known : start.vars.codeOf? name with
      | some code => exact kept
      | none =>
          cases matched : scope.resolver scope.terms name with
          | none => exact kept
          | some quantity => exact retains.register start name quantity found known matched kept

/-- Compiling does nothing to the state but register variables and add definitions. -/
theorem yields (retains : scope.Retains expanding keep) {inlining : List String}
    {tokens : List Token} {start next : Compiled} {program : Program}
    (yields : scope.Yields expanding inlining tokens start program next) (kept : keep start) :
    keep next := by
  induction yields with
  | connective | constant | defined | nil => exact kept
  | bare named => exact (retains.compileName _ _).ok named kept
  | comparison namedLeft namedRight =>
      have middle := (retains.compileName _ _).ok namedLeft kept
      exact (retains.compileName _ _).ok namedRight middle
  | macroName _ _ _ ih | first _ _ ih | second _ _ ih => exact ih retains kept
  | reference free source _ ih =>
      have middle := ih retains.expand kept
      exact retains.define _ _ _ (NameMap.contains_iff.2 ⟨_, source⟩) free middle
  | cons _ _ ihHead ihTail => exact ihTail retains (ihHead retains kept)

/-- A failure leaves what was retained up to it. -/
theorem fails (retains : scope.Retains expanding keep) {inlining : List String}
    {tokens : List Token} {start next : Compiled} {error : Error}
    (fails : scope.Fails expanding inlining tokens start error next) (kept : keep start) :
    keep next := by
  induction fails with
  | circularMacro | unknownMacro | circularReference | unknownReference => exact kept
  | bare stuck | left stuck => exact (retains.compileName _ _).error stuck kept
  | right named stuck =>
      have middle := (retains.compileName _ _).ok named kept
      exact (retains.compileName _ _).error stuck middle
  | macroName _ _ _ ih | first _ _ ih | second _ _ ih | head _ ih => exact ih retains kept
  | reference _ _ _ ih => exact ih retains.expand kept
  | tail head _ ih => exact ih retains (retains.yields head kept)

/-- Compiling tokens keeps what is retained, also when it fails. -/
theorem compileTokens (retains : scope.Retains expanding keep) (inlining : List String)
    (tokens : List Token) : Keeps (scope.compileTokens expanding inlining tokens) keep := by
  intro start kept
  unfold ending
  cases ran : scope.compileTokens expanding inlining tokens start with
  | ok program next => exact retains.yields (yields_of_compileTokens ran) kept
  | error error next => exact retains.fails (fails_of_compileTokens ran) kept

/-- Compiling a clause keeps what is retained, also when it fails. -/
theorem compileClause {name : String} (retains : scope.Retains [name] keep) (clause : Clause) :
    Keeps (scope.compileClause name clause) keep :=
  (retains.compileTokens [] clause.tokens).bind fun _ => keeps_pure _

/-- Clauses compiled one after another keep what compiling one of them keeps. -/
theorem compileAll (retains : scope.Retains [] keep) {entries : List (String × Clause)}
    (sources : ∀ entry ∈ entries, scope.sources.contains entry.1) :
    Keeps (Builder.compileAll scope entries) keep := by
  induction entries with
  | nil => exact keeps_pure _
  | cons entry rest ih =>
      obtain ⟨name, clause⟩ := entry
      have source : scope.sources.contains name := sources (name, clause) (by simp)
      have others := ih fun other member => sources other (by simp [member])
      rw [Builder.compileAll]
      refine keeps_get_bind fun compiled => ?_
      split
      · exact others
      · have inProgress : scope.Retains [name] keep := retains.expand
        simp only [Scope.compileClause, bind_assoc, pure_bind]
        refine (inProgress.compileTokens _ _).bind fun program => ?_
        refine Keeps.bind (keeps_modify fun start => ?_) fun _ => others
        exact retains.define start name program source (List.not_mem_nil)

end Retains

/-- Definitions that there are stay there, whatever is added. -/
theorem retains_contains (scope : Scope) (expanding : List String)
    (definitions : NameMap Definition) :
    scope.Retains expanding fun compiled =>
      ∀ name, definitions.contains name → compiled.definitions.contains name where
  register := fun _ _ _ _ _ _ known => known
  define := by
    intro compiled name program _ _ known other defined
    rw [NameMap.contains_insert, known other defined, Bool.or_true]

/-- Clauses compiled one after another leave a definition for each of them. -/
theorem contains_of_compileAll {entries : List (String × Clause)}
    (sources : ∀ entry ∈ entries, scope.sources.contains entry.1) {compiled next : Compiled}
    (ran : Builder.compileAll scope entries compiled = .ok () next) :
    ∀ entry ∈ entries, next.definitions.contains entry.1 := by
  induction entries generalizing compiled with
  | nil => exact List.forall_mem_nil _
  | cons entry rest ih =>
      obtain ⟨name, clause⟩ := entry
      have later := fun other member => sources other (List.mem_cons_of_mem _ member)
      rw [Builder.compileAll, get_bind_apply] at ran
      split at ran
      next known =>
        have kept := ((scope.retains_contains [] compiled.definitions).compileAll later).ok ran
          fun _ => id
        exact List.forall_mem_cons.2 ⟨kept name known, ih later ran⟩
      · obtain ⟨definition, middle, _, continued⟩ := bind_eq_ok_iff.1 ran
        obtain ⟨_, _, inserted, ranRest⟩ := bind_eq_ok_iff.1 continued
        cases inserted
        have kept := ((scope.retains_contains [] _).compileAll later).ok ranRest fun _ => id
        refine List.forall_mem_cons.2 ⟨kept name ?_, ih later ranRest⟩
        rw [NameMap.contains_insert]
        simp

/-- Definitions are added under their names. -/
theorem retains_named (scope : Scope) (expanding : List String) :
    scope.Retains expanding fun compiled => ∀ name definition,
      compiled.definitions.get? name = some definition → definition.name = name where
  register := fun _ _ _ _ _ _ named => named
  define := by
    intro compiled name program _ _ named other definition found
    rw [NameMap.get?_insert] at found
    split at found
    · next here =>
      cases found
      exact here.symm
    · exact named other definition found

/-- Without clauses at hand no definition is added. -/
theorem retains_definitions (alone : scope.sources = ∅) (definitions : NameMap Definition) :
    scope.Retains expanding fun compiled => compiled.definitions = definitions where
  register := fun _ _ _ _ _ _ same => same
  define := by
    intro compiled name program source
    rw [alone] at source
    exact absurd source (NameMap.not_contains_empty name)

end Scope

end Randomizer
