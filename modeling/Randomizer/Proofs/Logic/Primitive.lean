import Randomizer.Logic.Definition
import Randomizer.Proofs.Logic.Tree

namespace Randomizer

/-- What a resolved name reads: a term or the slot of a variable. -/
inductive Operand where
  | term (id : TermId)
  | slot (index : Nat)
  deriving DecidableEq, Repr

namespace Operand

def symbol : Operand → Symbol
  | term id => .term id
  | slot index => .slot index

def value (inputs : Inputs) : Operand → Int
  | term id => inputs.term id
  | slot index => inputs.slot index

/-- The code of an operand pushes the operand's value. -/
theorem step_code (inputs : Inputs) (operand : Operand) (stack : List Int) :
    Program.step inputs stack operand.symbol.code = operand.value inputs :: stack := by
  cases operand <;> simp only [Program.step, symbol, Symbol.ofCode?_code, value]

end Operand

/-- An atom of compiled logic. -/
inductive Primitive where
  | constant (value : Bool)
  | operand (content : Operand)
  | comparison (kind : Comparison) (left right : Operand)
  deriving DecidableEq, Repr

namespace Primitive

def program : Primitive → Program
  | constant value => [(constantOperator value).code]
  | operand content => [content.symbol.code]
  | comparison kind left right => [left.symbol.code, right.symbol.code, kind.operator.code]

def value (inputs : Inputs) : Primitive → Int
  | constant value => truth value
  | operand content => content.value inputs
  | comparison kind left right => kind.value (left.value inputs) (right.value inputs)

end Primitive

namespace Program

/-- The code of a constant pushes its truth value. -/
theorem step_constant (inputs : Inputs) (value : Bool) (stack : List Int) :
    step inputs stack (constantOperator value).code = truth value :: stack := by
  have decoded := Symbol.ofCode?_code (.operator (constantOperator value))
  simp only [Symbol.code] at decoded
  rw [step, decoded]
  cases value <;> rfl

/-- The code of a comparison takes two values and pushes how they compare. -/
theorem step_comparison (inputs : Inputs) (kind : Comparison) (left right : Int)
    (stack : List Int) :
    step inputs (right :: left :: stack) kind.operator.code = kind.value left right :: stack := by
  have decoded := Symbol.ofCode?_code (.operator kind.operator)
  simp only [Symbol.code] at decoded
  rw [step, decoded, ← Comparison.operator_value]
  cases kind <;> rfl

/-- The code of a connective takes two values and pushes what they join to. -/
theorem step_connective (inputs : Inputs) (kind : Connective) (left right : Int)
    (stack : List Int) :
    step inputs (right :: left :: stack) kind.operator.code = kind.value left right :: stack := by
  have decoded := Symbol.ofCode?_code (.operator kind.operator)
  simp only [Symbol.code] at decoded
  rw [step, decoded, ← Connective.operator_value]
  cases kind <;> rfl

/-- The program of a primitive pushes its value. -/
theorem run_primitive (inputs : Inputs) (primitive : Primitive) (stack : List Int) :
    run inputs primitive.program stack = primitive.value inputs :: stack := by
  cases primitive with
  | constant value => exact step_constant inputs value stack
  | operand content => exact content.step_code inputs stack
  | comparison kind left right =>
      simp only [Primitive.program, run, List.foldl_cons, List.foldl_nil, Operand.step_code,
        step_comparison, Primitive.value]

end Program

namespace Tree

/-- The program that writes a tree of compiled logic. -/
def program (tree : Tree Primitive) : Program :=
  tree.linear Primitive.program fun kind => kind.operator.code

/-- A program that writes a tree leaves the value of the tree on top of the stack. -/
theorem run_program (inputs : Inputs) (tree : Tree Primitive) (stack : List Int) :
    Program.run inputs tree.program stack =
      tree.value (Primitive.value inputs) :: stack := by
  induction tree generalizing stack with
  | atom primitive => exact Program.run_primitive inputs primitive stack
  | join kind left right ihLeft ihRight =>
      change Program.run inputs (left.program ++ right.program ++ [kind.operator.code]) stack = _
      rw [Program.run_append, Program.run_append, ihLeft, ihRight]
      exact Program.step_connective inputs kind _ _ stack

/-- The program of a tree has the value of the tree. -/
theorem value_program (inputs : Inputs) (tree : Tree Primitive) :
    tree.program.value inputs = tree.value (Primitive.value inputs) := by
  rw [Program.value, run_program]
  rfl

end Tree

end Randomizer
