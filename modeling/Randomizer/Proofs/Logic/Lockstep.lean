import Randomizer.Proofs.Logic.Dependency
import Randomizer.Proofs.Logic.Elementary
import Randomizer.Proofs.Logic.Retention
import Randomizer.Proofs.Logic.Steadiness

/-!
Two compilations side by side. Scopes that see the same names and macros differ only in what they
make of references, and where those come out alike, everything does: both compilations succeed, or
both stop with the same error.
-/

namespace Randomizer

open Randomizer.EStateM

namespace Scope

/-- States of two compilations, each sound for its own scopes, the second one with a property that
compiling keeps. -/
structure Matched (scope ambient other wider : Scope) (keep : Compiled → Prop)
    (compiled also : Compiled) : Prop where
  sound : compiled.Sound scope ambient
  soundOther : also.Sound other wider
  kept : keep also

/-- Why two scopes compile alike while some definitions are in progress. Which needs may come up is
told by the macros in progress: those of a macro's clause may come up under the macro, and every
reference that may come up comes out alike. -/
structure Lockstep (scope ambient other wider : Scope) (expanding : List String)
    (keep : Compiled → Prop) (allowed : List String → Need → Prop) : Prop where
  part : scope.PartOf ambient
  partOther : other.PartOf wider
  widen : ambient.PartOf wider
  steady : NameMap.All Clause.Steady ambient.macros
  retains : other.Retains expanding keep
  macroName : ∀ {inlining name clause}, allowed inlining (.clause (.macroName name)) →
    ambient.macros.get? name = some clause →
    ∀ need, ambient.ClauseNeeds clause need → allowed (name :: inlining) need
  reference : ∀ {inlining target compiled also},
    allowed inlining (.clause (.definition target)) →
    Matched scope ambient other wider keep compiled also →
    Alike (Matched scope ambient other wider keep)
      (scope.compileToken expanding inlining (.reference target) compiled)
      (other.compileToken expanding inlining (.reference target) also)

/-- A token whose fallbacks are steady and whose needs are allowed. -/
structure Admitted (ambient : Scope) (allowed : Need → Prop) (token : Token) : Prop where
  steady : token.Steady
  needs : ∀ need, ambient.Needs token need → allowed need

variable {scope ambient other wider : Scope} {expanding inlining : List String}
  {keep : Compiled → Prop} {allowed : List String → Need → Prop} {compiled also : Compiled}

/-- A name that does not resolve fails and changes nothing. -/
theorem compileName_of_not_resolves {name : String} (stuck : ¬ scope.Resolves name)
    (part : scope.PartOf ambient) (sound : compiled.Sound scope ambient) (definition : String) :
    scope.compileName definition name compiled =
      .error (.unresolvedName definition name) compiled := by
  have notTerm : scope.terms.idOf? name = none :=
    TermTable.idOf?_eq_none_iff.2 fun isTerm => stuck (.inl isTerm)
  have unmatched : scope.resolver scope.terms name = none := by
    cases matched : scope.resolver scope.terms name with
    | none => rfl
    | some quantity => exact absurd (.inr ⟨quantity, matched⟩) stuck
  have unknown : compiled.vars.codeOf? name = none := by
    cases known : compiled.vars.codeOf? name with
    | none => rfl
    | some code =>
        obtain ⟨slot, found, _⟩ := Option.map_eq_some_iff.1 known
        obtain ⟨quantity, registered⟩ := VariableTable.registered_of_slotOf? found
        obtain ⟨_, matched⟩ := sound.registered _ (List.mem_of_getElem? registered)
        rw [← part.terms, ← part.resolver, unmatched] at matched
        cases matched
  simp only [compileName, notTerm, get_bind_apply, unknown, unmatched]
  rfl

namespace Lockstep

/-- Scopes in lockstep have the same macros. -/
theorem macros (lockstep : Lockstep scope ambient other wider expanding keep allowed) :
    scope.macros = other.macros := by
  rw [lockstep.part.macros, lockstep.widen.macros, lockstep.partOther.macros]

/-- A name compiles alike in both scopes. -/
theorem compileName (lockstep : Lockstep scope ambient other wider expanding keep allowed)
    (matched : Matched scope ambient other wider keep compiled also) (definition name : String) :
    Alike (Matched scope ambient other wider keep)
      (scope.compileName definition name compiled) (other.compileName definition name also) := by
  have same : scope.Resolves name ↔ other.Resolves name :=
    lockstep.part.resolves.trans (lockstep.widen.resolves.trans lockstep.partOther.resolves.symm)
  by_cases resolves : scope.Resolves name
  · obtain ⟨code, next, ran⟩ := exists_compileName resolves definition compiled
    obtain ⟨otherCode, later, ranOther⟩ := exists_compileName (same.1 resolves) definition also
    obtain ⟨_, _, _, sound, _⟩ := compileName_ok lockstep.part matched.sound ran
    obtain ⟨_, _, _, soundOther, _⟩ :=
      compileName_ok lockstep.partOther matched.soundOther ranOther
    rw [ran, ranOther]
    have kept := (lockstep.retains.compileName definition name).ok ranOther matched.kept
    exact .ok ⟨sound, soundOther, kept⟩
  · rw [compileName_of_not_resolves resolves lockstep.part matched.sound,
      compileName_of_not_resolves (mt same.2 resolves) lockstep.partOther matched.soundOther]
    exact .error _ _ _

/-- In matching states the same branch of a fallback is taken. -/
theorem resolves (lockstep : Lockstep scope ambient other wider expanding keep allowed)
    (matched : Matched scope ambient other wider keep compiled also) {token : Token}
    (unreferring : token.Unreferring) :
    scope.resolves compiled token ↔ other.resolves also token :=
  (resolves_iff lockstep.part matched.sound).trans <|
    (atomResolves_widen lockstep.widen unreferring).trans
      (resolves_iff lockstep.partOther matched.soundOther).symm

/-- Tokens whose needs are allowed compile alike. -/
theorem throughout_alike (scope ambient other wider : Scope) (keep : Compiled → Prop)
    (allowed : List String → Need → Prop) :
    scope.Throughout fun expanding inlining tokens work =>
      Lockstep scope ambient other wider expanding keep allowed →
      (∀ token ∈ tokens, ambient.Admitted (allowed inlining) token) →
      ∀ compiled also, Matched scope ambient other wider keep compiled also →
        Alike (Matched scope ambient other wider keep) (work compiled)
          (other.compileTokens expanding inlining tokens also) where
  connective := by
    intro _ _ kind _ _ compiled also matched
    rw [compileTokens_singleton, compileToken]
    exact .ok matched
  constant := by
    intro _ _ value _ _ compiled also matched
    rw [compileTokens_singleton, compileToken]
    exact .ok matched
  bare := by
    intro expanding inlining name lockstep _ compiled also matched
    rw [compileTokens_singleton, compileToken]
    refine (lockstep.compileName matched _ name).bind fun _ _ middle otherMiddle kept => ?_
    exact .ok kept
  comparison := by
    intro expanding inlining kind left right lockstep _ compiled also matched
    rw [compileTokens_singleton, compileToken]
    refine (lockstep.compileName matched _ left).bind fun _ _ middle otherMiddle kept => ?_
    refine (lockstep.compileName kept _ right).bind fun _ _ next later keptNext => ?_
    exact .ok keptNext
  circularMacro := by
    intro expanding inlining name busy _ _ compiled also matched
    rw [compileTokens_singleton, compileToken, dif_pos busy]
    exact .error _ _ _
  unknownMacro := by
    intro expanding inlining name free missing lockstep _ compiled also matched
    rw [compileTokens_singleton,
      compileToken_macroName_of_none free (lockstep.macros ▸ missing)]
    exact .error _ _ _
  macroName := by
    intro expanding inlining name clause free found ih lockstep admitted compiled also matched
    rw [compileTokens_singleton, compileToken_macroName free (lockstep.macros ▸ found)]
    rw [lockstep.part.macros] at found
    have needs := (admitted _ List.mem_cons_self).needs _ (.macroName name)
    have ofMacro := lockstep.macroName needs found
    exact ih lockstep (fun token member => ⟨lockstep.steady _ _ found token member,
      fun need inner => ofMacro need ⟨token, member, inner⟩⟩) compiled also matched
  reference := by
    intro expanding inlining target _ lockstep admitted compiled also matched
    rw [compileTokens_singleton]
    have needs := (admitted _ List.mem_cons_self).needs _ (.reference target)
    exact lockstep.reference needs matched
  fallback := by
    intro expanding inlining first second ihFirst ihSecond lockstep admitted compiled also matched
    obtain ⟨⟨ofFirst, ofSecond⟩, needs⟩ := admitted _ List.mem_cons_self
    have same := lockstep.resolves matched ofFirst
    have taken : scope.resolves compiled first ↔ ambient.AtomResolves first :=
      resolves_iff lockstep.part matched.sound
    rw [compileTokens_singleton, compileToken, get_bind_apply, get_bind_apply]
    rw [compileTokens_singleton] at ihFirst ihSecond
    by_cases resolves : scope.resolves compiled first
    · rw [if_pos resolves, if_pos (same.1 resolves)]
      exact ihFirst lockstep (List.forall_mem_singleton.2 ⟨ofFirst.steady, fun need inner =>
        needs need (.first (taken.1 resolves) inner)⟩) compiled also matched
    · rw [if_neg resolves, if_neg (mt same.2 resolves)]
      exact ihSecond lockstep (List.forall_mem_singleton.2 ⟨ofSecond.steady, fun need inner =>
        needs need (.second (mt taken.2 resolves) inner)⟩) compiled also matched
  nil := by
    intro expanding inlining _ _ compiled also matched
    rw [compileTokens]
    exact .ok matched
  cons := by
    intro expanding inlining token rest ihToken ihRest lockstep admitted compiled also matched
    obtain ⟨head, tail⟩ := List.forall_mem_cons.1 admitted
    rw [compileTokens]
    rw [compileTokens_singleton] at ihToken
    have ofToken := ihToken lockstep (List.forall_mem_singleton.2 head) compiled also matched
    refine ofToken.bind fun _ _ middle otherMiddle kept => ?_
    refine (ihRest lockstep tail middle otherMiddle kept).bind fun _ _ next later keptNext => ?_
    exact .ok keptNext

/-- A clause whose needs are allowed compiles alike. -/
theorem compileClause {name : String} {clause : Clause}
    (lockstep : Lockstep scope ambient other wider [name] keep allowed)
    (admitted : ∀ token ∈ clause.tokens, ambient.Admitted (allowed []) token)
    (matched : Matched scope ambient other wider keep compiled also) :
    Alike (Matched scope ambient other wider keep)
      (scope.compileClause name clause compiled) (other.compileClause name clause also) := by
  have ofTokens := (throughout_alike scope ambient other wider keep allowed).compileToken_and.2
    [name] [] clause.tokens lockstep admitted compiled also matched
  refine ofTokens.bind fun _ _ next later kept => ?_
  exact .ok kept

end Lockstep

end Scope

end Randomizer
