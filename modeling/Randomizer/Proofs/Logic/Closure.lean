import Randomizer.Program.Machine
import Randomizer.Proofs.Logic.Expansion

namespace Randomizer

namespace Symbol

/-- The symbol reads a term or a slot only where the tables have one. -/
def Within (terms : TermTable) (vars : VariableTable) : Symbol → Prop
  | .term id => id.index < terms.size
  | .slot index => index < vars.size
  | .operator _ => True

instance (terms : TermTable) (vars : VariableTable) :
    (symbol : Symbol) → Decidable (symbol.Within terms vars)
  | .term id => inferInstanceAs (Decidable (id.index < terms.size))
  | .slot index => inferInstanceAs (Decidable (index < vars.size))
  | .operator _ => inferInstanceAs (Decidable True)

end Symbol

namespace Program

/-- A well-formed program whose symbols stay within the tables. -/
structure Closed (terms : TermTable) (vars : VariableTable) (program : Program) : Prop where
  wellFormed : program.WellFormed
  within : ∀ code ∈ program, ∀ symbol, Symbol.ofCode? code = some symbol →
    symbol.Within terms vars

/-- What a symbol finds when a program comes to it: a meaning, as many values on the stack as it
takes off, and a variable in the slot that it reads. -/
structure Finds (vars : VariableTable) (before : Program) (code : Int) (symbol : Symbol) :
    Prop where
  meaning : Symbol.ofCode? code = some symbol
  operands : ∀ inputs, symbol.arity ≤ (run inputs before []).length
  quantity : ∀ slot, symbol = .slot slot → ∃ quantity, vars.atCode? code = some quantity

/-- At no symbol does a run miss anything, and it leaves one value. -/
structure Smooth (vars : VariableTable) (program : Program) : Prop where
  steps : ∀ before code rest, program = before ++ code :: rest →
    ∃ symbol, Finds vars before code symbol
  result : ∀ inputs, (run inputs program []).length = 1

/-- With enough operands the check goes past a symbol. -/
theorem checkFrom_code {symbol : Symbol} {depth : Nat} (enough : symbol.arity ≤ depth)
    (position : Nat) (rest : Program) :
    checkFrom depth position (symbol.code :: rest) =
      checkFrom (depth - symbol.arity + 1) (position + 1) rest := by
  simp only [checkFrom, Symbol.ofCode?_code, if_neg (Nat.not_lt.2 enough)]

/-- A check that succeeds has known the first code and had enough operands for it. -/
theorem checkFrom_cons_ok {depth position : Nat} {code : Int} {rest : Program}
    (checked : checkFrom depth position (code :: rest) = .ok ()) :
    ∃ symbol, Symbol.ofCode? code = some symbol ∧ symbol.arity ≤ depth ∧
      checkFrom (depth - symbol.arity + 1) (position + 1) rest = .ok () := by
  unfold checkFrom at checked
  split at checked
  · cases checked
  · next symbol meaning =>
    split at checked
    · cases checked
    · next enough => exact ⟨symbol, meaning, Nat.not_lt.1 enough, checked⟩

/-- An operator leaves one value in place of its operands. -/
theorem length_apply {kind : Operator} {stack : List Int} (enough : kind.arity ≤ stack.length) :
    (kind.apply stack).length = stack.length - kind.arity + 1 := by
  cases kind with
  | always | never => rfl
  | _ =>
      match stack with
      | right :: left :: rest => rfl
      | [_] | [] => simp [Operator.arity] at enough

/-- A symbol takes its operands off the stack and leaves one value. -/
theorem length_step (inputs : Inputs) {stack : List Int} {code : Int} {symbol : Symbol}
    (meaning : Symbol.ofCode? code = some symbol) (enough : symbol.arity ≤ stack.length) :
    (step inputs stack code).length = stack.length - symbol.arity + 1 := by
  rw [step, meaning]
  cases symbol with
  | term | slot => rfl
  | operator kind => exact length_apply enough

/-- The check follows the height of the stack, whatever the program reads. -/
theorem checkFrom_run (inputs : Inputs) {before rest : Program} {stack : List Int}
    {position : Nat} (checked : checkFrom stack.length position (before ++ rest) = .ok ()) :
    checkFrom (run inputs before stack).length (position + before.length) rest = .ok () := by
  induction before generalizing stack position with
  | nil => exact checked
  | cons code others ih =>
      obtain ⟨symbol, meaning, enough, checkedOthers⟩ := checkFrom_cons_ok checked
      rw [← length_step inputs meaning enough] at checkedOthers
      have checkedRest := ih checkedOthers
      rw [List.length_cons, Nat.add_comm others.length, ← Nat.add_assoc]
      exact checkedRest

/-- A well-formed program leaves exactly one value, whatever it reads. -/
theorem WellFormed.run {program : Program} (wellFormed : program.WellFormed) (inputs : Inputs) :
    (Program.run inputs program []).length = 1 := by
  have checked : checkFrom (List.length ([] : List Int)) 0 (program ++ []) = .ok () := by
    rw [List.append_nil]
    exact wellFormed
  have ending := checkFrom_run inputs checked
  unfold checkFrom at ending
  split at ending
  · next single => exact single
  · cases ending

/-- Every symbol of a well-formed program finds its operands on the stack. -/
theorem WellFormed.exists_symbol {before rest : Program} {code : Int}
    (wellFormed : (before ++ code :: rest).WellFormed) :
    ∃ symbol, Symbol.ofCode? code = some symbol ∧
      ∀ inputs, symbol.arity ≤ (Program.run inputs before []).length := by
  have checked (inputs : Inputs) :
      checkFrom (Program.run inputs before []).length (0 + before.length) (code :: rest) =
        .ok () :=
    checkFrom_run inputs wellFormed
  obtain ⟨symbol, meaning, _, _⟩ := checkFrom_cons_ok (checked ⟨fun _ => 0, fun _ => 0⟩)
  refine ⟨symbol, meaning, fun inputs => ?_⟩
  obtain ⟨same, found, enough, _⟩ := checkFrom_cons_ok (checked inputs)
  obtain rfl := Option.some.inj (meaning.symm.trans found)
  exact enough

/-- A closed program finds all that it needs as it runs. -/
theorem Closed.smooth {terms : TermTable} {vars : VariableTable} {program : Program}
    (closed : program.Closed terms vars) : program.Smooth vars where
  steps := by
    rintro before code rest rfl
    obtain ⟨symbol, meaning, operands⟩ := closed.wellFormed.exists_symbol
    refine ⟨symbol, meaning, operands, fun slot isSlot => ?_⟩
    subst isSlot
    have bound : slot < vars.registrations.length := closed.within code (by simp) _ meaning
    refine ⟨vars.registrations[slot].quantity, ?_⟩
    rw [VariableTable.atCode?, meaning]
    simp only [VariableTable.atSlot?, List.getElem?_eq_getElem bound, Option.map_some]
  result := closed.wellFormed.run

end Program

section Expansion

variable {scope : Scope} {vars : VariableTable} {terms : TermTable}

/-- The index of a term lies in the table. -/
theorem TermTable.index_lt_of_idOf? {name : String} {id : TermId}
    (found : terms.idOf? name = some id) : id.index < terms.size :=
  (List.getElem?_eq_some_iff.1 (nameOf?_eq_some_iff.2 found)).1

/-- The symbols of an atom stay within the tables. -/
def Primitive.Within (terms : TermTable) (vars : VariableTable) : Primitive → Prop
  | .constant _ => True
  | .operand content => content.symbol.Within terms vars
  | .comparison _ left right => left.symbol.Within terms vars ∧ right.symbol.Within terms vars

/-- The operand of a name is a term or a variable that there is. -/
theorem Scope.Names.within {name : String} {operand : Operand}
    (names : scope.Names vars name operand) : operand.symbol.Within scope.terms vars := by
  cases names with
  | term found => exact TermTable.index_lt_of_idOf? found
  | slot _ _ registered => exact (List.getElem?_eq_some_iff.1 registered).1

/-- All symbols that a tree is replaced by are terms and variables that there are. -/
theorem Scope.Expands.within {tree : Tree Token} {compiled : Tree Primitive}
    (expands : scope.Expands vars tree compiled) :
    compiled.All (Primitive.Within scope.terms vars) := by
  induction expands with
  | bare names => exact names.within
  | comparison left right => exact ⟨left.within, right.within⟩
  | constant value => trivial
  | macroName _ _ _ ih | reference _ _ _ ih | first _ _ ih | second _ _ ih => exact ih
  | join _ _ ihLeft ihRight => exact ⟨ihLeft, ihRight⟩

/-- The check takes an operand as one more value. -/
theorem Program.checkFrom_operand (operand : Operand) (depth position : Nat) (rest : Program) :
    checkFrom depth position (operand.symbol.code :: rest) =
      checkFrom (depth + 1) (position + 1) rest := by
  have nullary : operand.symbol.arity = 0 := by cases operand <;> rfl
  rw [checkFrom_code (by omega), nullary, Nat.sub_zero]

/-- The check takes an operator of two operands as one value in place of two. -/
theorem Program.checkFrom_operator {kind : Operator} (binary : kind.arity = 2)
    (depth position : Nat) (rest : Program) :
    checkFrom (depth + 2) position (kind.code :: rest) =
      checkFrom (depth + 1) (position + 1) rest := by
  have arity : (Symbol.operator kind).arity = 2 := binary
  have enough : (Symbol.operator kind).arity ≤ depth + 2 := by omega
  have checked := checkFrom_code enough position rest
  rwa [arity, Nat.add_sub_cancel] at checked

/-- The check takes a constant as one more value. -/
theorem Program.checkFrom_constant (value : Bool) (depth position : Nat) (rest : Program) :
    checkFrom depth position ((constantOperator value).code :: rest) =
      checkFrom (depth + 1) (position + 1) rest := by
  have nullary : (Symbol.operator (constantOperator value)).arity = 0 := by cases value <;> rfl
  have enough : (Symbol.operator (constantOperator value)).arity ≤ depth := by omega
  have checked := checkFrom_code enough position rest
  rwa [nullary, Nat.sub_zero] at checked

/-- What writes a tree adds one value to the stack. -/
theorem Tree.checkFrom_program (tree : Tree Primitive) (depth position : Nat) (rest : Program) :
    Program.checkFrom depth position (tree.program ++ rest) =
      Program.checkFrom (depth + 1) (position + tree.program.length) rest := by
  induction tree generalizing depth position rest with
  | atom primitive =>
      cases primitive with
      | constant value => exact Program.checkFrom_constant value depth position rest
      | operand content => exact Program.checkFrom_operand content depth position rest
      | comparison kind left right =>
          have binary : kind.operator.arity = 2 := by cases kind <;> rfl
          have program : (Tree.atom (.comparison kind left right)).program =
              [left.symbol.code, right.symbol.code, kind.operator.code] := rfl
          simp only [program, List.cons_append, List.nil_append, Program.checkFrom_operand,
            Program.checkFrom_operator binary, List.length_cons, List.length_nil]
  | join kind left right ihLeft ihRight =>
      have binary : kind.operator.arity = 2 := by cases kind <;> rfl
      have program : (Tree.join kind left right).program =
          left.program ++ right.program ++ [kind.operator.code] := rfl
      simp only [program, List.append_assoc, ihLeft, ihRight, List.cons_append, List.nil_append,
        Program.checkFrom_operator binary, List.length_append, List.length_cons, List.length_nil,
        Nat.add_assoc]

/-- The program of a tree is well formed. -/
theorem Tree.wellFormed_program (tree : Tree Primitive) : tree.program.WellFormed := by
  have checked := tree.checkFrom_program 0 0 []
  rw [List.append_nil] at checked
  exact checked

/-- The program of a tree has no symbols but those of the tree. -/
theorem Tree.within_program {tree : Tree Primitive}
    (within : tree.All (Primitive.Within terms vars)) :
    ∀ code ∈ tree.program, ∀ symbol, Symbol.ofCode? code = some symbol →
      symbol.Within terms vars := by
  have ofSymbol {known : Symbol} (ofKnown : known.Within terms vars) {symbol : Symbol}
      (meaning : Symbol.ofCode? known.code = some symbol) : symbol.Within terms vars := by
    rw [Symbol.ofCode?_code] at meaning
    cases meaning
    exact ofKnown
  have ofOperator (kind : Operator) {symbol : Symbol}
      (meaning : Symbol.ofCode? kind.code = some symbol) : symbol.Within terms vars := by
    have within : (Symbol.operator kind).Within terms vars := trivial
    exact ofSymbol within meaning
  induction tree with
  | atom primitive =>
      intro code member symbol meaning
      cases primitive with
      | constant value =>
          obtain rfl := List.mem_singleton.1 member
          exact ofOperator _ meaning
      | operand content =>
          obtain rfl := List.mem_singleton.1 member
          exact ofSymbol within meaning
      | comparison kind left right =>
          have inProgram : code ∈ [left.symbol.code, right.symbol.code, kind.operator.code] :=
            member
          simp only [List.mem_cons, List.not_mem_nil, or_false] at inProgram
          rcases inProgram with rfl | rfl | rfl
          · exact ofSymbol within.1 meaning
          · exact ofSymbol within.2 meaning
          · exact ofOperator _ meaning
  | join kind left right ihLeft ihRight =>
      intro code member symbol meaning
      have inProgram : code ∈ left.program ++ right.program ++ [kind.operator.code] := member
      rw [List.mem_append, List.mem_append, List.mem_singleton] at inProgram
      rcases inProgram with (inLeft | inRight) | rfl
      · exact ihLeft within.1 code inLeft symbol meaning
      · exact ihRight within.2 code inRight symbol meaning
      · exact ofOperator _ meaning

/-- The program of a clause is closed over the terms of the scope and the variables that there
are. -/
theorem Scope.ClauseExpands.closed {clause : Clause} {program : Program}
    (expands : scope.ClauseExpands vars clause program) : program.Closed scope.terms vars := by
  obtain ⟨tree, compiled, _, expandsTree, rfl⟩ := expands
  exact ⟨compiled.wellFormed_program, Tree.within_program expandsTree.within⟩

end Expansion

end Randomizer
