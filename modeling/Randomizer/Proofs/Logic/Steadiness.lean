import Randomizer.Proofs.Logic.Compilation

/-!
Logic that stays the same when more definitions come along. The branches of a fallback that text can
write are names, so which of them is taken does not depend on the definitions there are, and what
logic is replaced by in one scope it is replaced by in every scope with further clauses.
-/

namespace Randomizer

namespace Token

/-- No reference stands in the token, also not in a branch. -/
def Unreferring : Token → Prop
  | .reference _ => False
  | .fallback first second => first.Unreferring ∧ second.Unreferring
  | _ => True

/-- Branches of fallbacks do not refer to definitions. -/
def Steady : Token → Prop
  | .fallback first second => first.Unreferring ∧ second.Unreferring
  | _ => True

/-- A token that refers to nothing is steady. -/
theorem Unreferring.steady {token : Token} (unreferring : token.Unreferring) : token.Steady := by
  cases token with
  | fallback first second => exact unreferring
  | _ => trivial

/-- A name is read as a token that refers to nothing. -/
theorem NamedBy.unreferring {isMacro : String → Bool} {name : String} {token : Token}
    (named : NamedBy isMacro name token) : token.Unreferring := by
  cases named <;> trivial

/-- A token that is spelled is steady. -/
theorem Spelled.steady {isMacro : String → Bool} {chars : List Char} {token : Token}
    (spelled : Spelled isMacro chars token) : token.Steady := by
  cases spelled with
  | name _ named => exact named.unreferring.steady
  | fallback _ _ first second => exact ⟨first.unreferring, second.unreferring⟩
  | comparison | reference => trivial

end Token

namespace Clause

/-- In none of the clause's fallbacks a branch refers to a definition. -/
def Steady (clause : Clause) : Prop := ∀ token ∈ clause.tokens, token.Steady

/-- A clause that is read is steady. -/
theorem steady_of_ofText {isMacro : String → Bool} {text : String} {clause : Clause}
    (read : ofText isMacro text = .ok clause) : clause.Steady :=
  forall_mem_of_ofText (fun _ => trivial) (fun _ _ => Token.Spelled.steady) read

end Clause

/-- A clause that is parsed is steady. -/
theorem MacroTable.steady_of_parseWith {isMacro : String → Bool} {name text : String}
    {clause : Clause} (parsed : parseWith isMacro name text = .ok clause) : clause.Steady :=
  Clause.steady_of_ofText (Except.mapError_eq_ok_iff.1 parsed)

/-- The clauses of a builder that was filled by ingestion are steady. -/
theorem Builder.Ingested.steady {builder : Builder} (ingested : builder.Ingested) :
    builder.AllClauses Clause.Steady :=
  ingested.invariant (fun _ => ⟨NameMap.all_empty, NameMap.all_empty⟩) fun _ _ ingests =>
    ingests.allClauses fun _ _ _ _ => MacroTable.steady_of_parseWith

namespace Scope

/-- Every clause that is still to be put in place is steady. -/
structure Steady (scope : Scope) : Prop where
  macros : NameMap.All Clause.Steady scope.macros
  sources : scope.sources.All Clause.Steady

variable {scope wider : Scope}

/-- What is steady in the whole is so in a part of it. -/
theorem PartOf.steady (part : scope.PartOf wider) (steady : wider.Steady) : scope.Steady where
  macros := fun name clause found => steady.macros name clause (part.macros ▸ found)
  sources := fun name clause found => steady.sources name clause (part.sources name clause found)

/-- Further clauses do not change whether a token without references resolves. -/
theorem atomResolves_widen (part : scope.PartOf wider) {token : Token}
    (unreferring : token.Unreferring) :
    scope.AtomResolves token ↔ wider.AtomResolves token := by
  induction token with
  | bare name => exact part.resolves
  | comparison kind left right => exact and_congr (part.resolves) (part.resolves)
  | constant | connective => exact Iff.rfl
  | macroName name => rw [AtomResolves, AtomResolves, part.macros]
  | reference target => exact unreferring.elim
  | fallback first second ihFirst ihSecond =>
      exact or_congr (ihFirst unreferring.1) (ihSecond unreferring.2)

/-- A name keeps its operand where more is at hand. -/
theorem Names.widen (part : scope.PartOf wider) {vars : VariableTable} {name : String}
    {operand : Operand} (names : scope.Names vars name operand) :
    wider.Names vars name operand := by
  cases names with
  | term found => exact .term (part.terms ▸ found)
  | slot notTerm matched registered =>
      exact .slot (part.terms ▸ notTerm) (part.resolver ▸ part.terms ▸ matched) registered

/-- What logic is replaced by, it is replaced by where there are more clauses. -/
theorem Expands.widen (part : scope.PartOf wider) (steady : scope.Steady) {vars : VariableTable}
    {tree : Tree Token} {compiled : Tree Primitive} (expands : scope.Expands vars tree compiled)
    (steadyTree : ∀ token ∈ tree.tokens, token.Steady) : wider.Expands vars tree compiled := by
  induction expands with
  | bare names => exact .bare (names.widen part)
  | comparison left right => exact .comparison (left.widen part) (right.widen part)
  | constant value => exact .constant value
  | macroName found written _ ih =>
      refine .macroName (part.macros ▸ found) written (ih ?_)
      rw [written]
      exact steady.macros _ _ found
  | reference found written _ ih =>
      refine .reference (part.sources _ _ found) written (ih ?_)
      rw [written]
      exact steady.sources _ _ found
  | first resolves _ ih =>
      obtain ⟨ofFirst, _⟩ := steadyTree _ (List.mem_singleton_self _)
      refine .first ((atomResolves_widen part ofFirst).1 resolves) (ih ?_)
      exact List.forall_mem_singleton.2 ofFirst.steady
  | second stuck _ ih =>
      obtain ⟨ofFirst, ofSecond⟩ := steadyTree _ (List.mem_singleton_self _)
      refine .second (mt (atomResolves_widen part ofFirst).2 stuck) (ih ?_)
      exact List.forall_mem_singleton.2 ofSecond.steady
  | join _ _ ihLeft ihRight =>
      rw [Tree.tokens_join] at steadyTree
      refine .join (ihLeft fun token member => steadyTree token ?_)
        (ihRight fun token member => steadyTree token ?_)
      · simp [member]
      · simp [member]

/-- A steady clause is replaced by the same symbols where more is at hand. -/
theorem ClauseExpands.widen (part : scope.PartOf wider) (steady : scope.Steady)
    {vars : VariableTable} {clause : Clause} {program : Program} (steadyClause : clause.Steady)
    (expands : scope.ClauseExpands vars clause program) :
    wider.ClauseExpands vars clause program := by
  obtain ⟨tree, compiled, written, expandsTree, same⟩ := expands
  refine ⟨tree, compiled, written, expandsTree.widen part steady ?_, same⟩
  rw [written]
  exact steadyClause

end Scope

end Randomizer
