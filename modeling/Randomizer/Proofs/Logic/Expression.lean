import Randomizer.Proofs.Logic.Closure

/-!
Checked programs as expressions. Compiled logic compares operands only, but the check of a program
asks for no more than two values, so a checked program may compare constants, comparisons and
connected logic as well. Every program that passes the check writes one such expression.
-/

namespace Randomizer

namespace Symbol

/-- A code is that of the symbol it is decoded to. -/
theorem code_of_ofCode? {code : Int} {symbol : Symbol} (meaning : ofCode? code = some symbol) :
    symbol.code = code := by
  unfold ofCode? at meaning
  split at meaning
  · next natural =>
    cases meaning
    exact Int.toNat_of_nonneg natural
  · split at meaning
    · next low =>
      cases meaning
      simp only [Symbol.code]
      omega
    · obtain ⟨kind, isKind, rfl⟩ := Option.map_eq_some_iff.1 meaning
      unfold Operator.ofCode? at isKind
      split at isKind <;> cases isKind <;> rfl

end Symbol

/-- What a checked program writes. -/
inductive Expression where
  | operand (content : Operand)
  | constant (value : Bool)
  | join (kind : Connective) (left right : Expression)
  | compare (kind : Comparison) (left right : Expression)
  deriving DecidableEq, Repr

namespace Expression

/-- Each operator comes after its two operands. -/
def program : Expression → Program
  | operand content => [content.symbol.code]
  | constant value => [(constantOperator value).code]
  | join kind left right => left.program ++ right.program ++ [kind.operator.code]
  | compare kind left right => left.program ++ right.program ++ [kind.operator.code]

/-- The two latest expressions become one. -/
def pushPair (pair : Expression → Expression → Expression) : List Expression → List Expression
  | right :: left :: rest => pair left right :: rest
  | stack => stack

/-- One symbol's work on the expressions read so far, the latest on top. -/
def push (stack : List Expression) (code : Int) : List Expression :=
  match Symbol.ofCode? code with
  | some (.term id) => .operand (.term id) :: stack
  | some (.slot index) => .operand (.slot index) :: stack
  | some (.operator .always) => .constant true :: stack
  | some (.operator .never) => .constant false :: stack
  | some (.operator .and) => pushPair (.join .and) stack
  | some (.operator .or) => pushPair (.join .or) stack
  | some (.operator .equal) => pushPair (.compare .equal) stack
  | some (.operator .less) => pushPair (.compare .less) stack
  | some (.operator .greater) => pushPair (.compare .greater) stack
  | none => stack

/-- A symbol is pushed as an operand, or takes the top expressions as its operands. -/
theorem push_code (symbol : Symbol) (stack : List Expression) :
    push stack symbol.code =
      match symbol with
      | .term id => .operand (.term id) :: stack
      | .slot index => .operand (.slot index) :: stack
      | .operator .always => .constant true :: stack
      | .operator .never => .constant false :: stack
      | .operator .and => pushPair (.join .and) stack
      | .operator .or => pushPair (.join .or) stack
      | .operator .equal => pushPair (.compare .equal) stack
      | .operator .less => pushPair (.compare .less) stack
      | .operator .greater => pushPair (.compare .greater) stack := by
  rw [push, Symbol.ofCode?_code]
  cases symbol with
  | operator kind => cases kind <;> rfl
  | term | slot => rfl

/-- The program of an expression pushes the expression. -/
theorem foldl_push_program (expression : Expression) (stack : List Expression) :
    expression.program.foldl push stack = expression :: stack := by
  induction expression generalizing stack with
  | operand content =>
      have pushed := push_code content.symbol stack
      cases content <;> exact pushed
  | constant value =>
      have pushed := push_code (.operator (constantOperator value)) stack
      cases value <;> exact pushed
  | join kind left right ihLeft ihRight =>
      have pushed := push_code (.operator kind.operator) (right :: left :: stack)
      rw [program, List.foldl_append, List.foldl_append, ihLeft, ihRight]
      cases kind <;> exact pushed
  | compare kind left right ihLeft ihRight =>
      have pushed := push_code (.operator kind.operator) (right :: left :: stack)
      rw [program, List.foldl_append, List.foldl_append, ihLeft, ihRight]
      cases kind <;> exact pushed

/-- A program writes at most one expression. -/
theorem program_injective {first second : Expression} (same : first.program = second.program) :
    first = second := by
  have read := foldl_push_program first []
  rw [same, foldl_push_program] at read
  exact (List.cons.inj read).1.symm

/-- The program that expressions write one after another, the latest on top. -/
def written (stack : List Expression) : Program := stack.reverse.flatMap program

/-- A stack is written from its bottom up. -/
theorem written_cons (expression : Expression) (stack : List Expression) :
    written (expression :: stack) = written stack ++ expression.program := by
  simp [written]

/-- A symbol takes its operands off the stack and leaves what it writes with them. -/
theorem push_writes {stack : List Expression} {symbol : Symbol}
    (enough : symbol.arity ≤ stack.length) :
    (push stack symbol.code).length = stack.length - symbol.arity + 1 ∧
      written (push stack symbol.code) = written stack ++ [symbol.code] := by
  have pair {make : Expression → Expression → Expression} {code : Int}
      (writes : ∀ left right, (make left right).program = left.program ++ right.program ++ [code])
      (two : 2 ≤ stack.length) : (pushPair make stack).length = stack.length - 2 + 1 ∧
        written (pushPair make stack) = written stack ++ [code] := by
    match stack, two with
    | right :: left :: rest, _ =>
      refine ⟨rfl, ?_⟩
      rw [pushPair, written_cons, written_cons, written_cons, writes, List.append_assoc,
        List.append_assoc, List.append_assoc]
  rw [push_code]
  cases symbol with
  | term | slot => exact ⟨rfl, written_cons _ _⟩
  | operator kind =>
      cases kind with
      | always | never => exact ⟨rfl, written_cons _ _⟩
      | and | or | equal | less | greater => exact pair (fun _ _ => rfl) enough

/-- A program that is checked to its end writes one expression. -/
theorem exists_of_checkFrom {program : Program} {position : Nat} {stack : List Expression}
    (checked : Program.checkFrom stack.length position program = .ok ()) :
    ∃ expression : Expression, expression.program = written stack ++ program := by
  induction program generalizing position stack with
  | nil =>
      unfold Program.checkFrom at checked
      split at checked
      · next single =>
        obtain ⟨expression, rfl⟩ := List.length_eq_one_iff.1 single
        exact ⟨expression, by simp [written]⟩
      · cases checked
  | cons code rest ih =>
      obtain ⟨symbol, meaning, enough, checkedRest⟩ := Program.checkFrom_cons_ok checked
      obtain rfl := Symbol.code_of_ofCode? meaning
      obtain ⟨length, writes⟩ := push_writes enough
      rw [← length] at checkedRest
      obtain ⟨expression, whole⟩ := ih checkedRest
      rw [writes, List.append_assoc, List.singleton_append] at whole
      exact ⟨expression, whole⟩

/-- A program that passes the check writes an expression. -/
theorem exists_of_wellFormed {program : Program} (wellFormed : program.WellFormed) :
    ∃ expression : Expression, expression.program = program := by
  have checked : Program.checkFrom ([] : List Expression).length 0 program = .ok () := wellFormed
  exact exists_of_checkFrom checked

def isJoin : Expression → Bool
  | join _ _ _ => true
  | _ => false

/-- No comparison has a conjunction or a disjunction for an operand. -/
def Level : Expression → Prop
  | operand _ | constant _ => True
  | join _ left right => left.Level ∧ right.Level
  | compare _ left right =>
    (left.Level ∧ left.isJoin = false) ∧ right.Level ∧ right.isJoin = false

/-- Only operands are compared. -/
def Simple : Expression → Prop
  | operand _ | constant _ => True
  | join _ left right => left.Simple ∧ right.Simple
  | compare _ (operand _) (operand _) => True
  | compare _ _ _ => False

/-- A comparison of a simple expression is one of operands. -/
theorem Simple.compared {kind : Comparison} {left right : Expression}
    (simple : (compare kind left right).Simple) :
    ∃ first second, left = operand first ∧ right = operand second := by
  cases left with
  | operand first =>
      cases right with
      | operand second => exact ⟨first, second, rfl, rfl⟩
      | _ => exact simple.elim
  | _ => exact simple.elim

/-- A simple expression is level. -/
theorem Simple.level {expression : Expression} (simple : expression.Simple) :
    expression.Level := by
  induction expression with
  | operand | constant => trivial
  | join kind left right ihLeft ihRight => exact ⟨ihLeft simple.1, ihRight simple.2⟩
  | compare kind left right =>
      obtain ⟨first, second, rfl, rfl⟩ := simple.compared
      exact ⟨⟨trivial, rfl⟩, trivial, rfl⟩

/-- Where only operands are compared the expression is compiled logic. -/
theorem Simple.exists_tree {expression : Expression} (simple : expression.Simple) :
    ∃ tree : Tree Primitive, tree.program = expression.program := by
  induction expression with
  | operand content => exact ⟨.atom (.operand content), rfl⟩
  | constant value => exact ⟨.atom (.constant value), rfl⟩
  | join kind left right ihLeft ihRight =>
      obtain ⟨first, writesFirst⟩ := ihLeft simple.1
      obtain ⟨second, writesSecond⟩ := ihRight simple.2
      refine ⟨.join kind first second, ?_⟩
      rw [program, ← writesFirst, ← writesSecond]
      rfl
  | compare kind left right =>
      obtain ⟨first, second, rfl, rfl⟩ := simple.compared
      exact ⟨.atom (.comparison kind first second), rfl⟩

end Expression

end Randomizer
