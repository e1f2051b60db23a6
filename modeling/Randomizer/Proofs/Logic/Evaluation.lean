import Randomizer.Logic.Manager
import Randomizer.Proofs.Logic.Viability

namespace Randomizer

/-- The value of an expression under what its operands read. -/
def Expression.value (inputs : Inputs) : Expression → Int
  | operand content => content.value inputs
  | constant value => truth value
  | join kind left right => kind.value (left.value inputs) (right.value inputs)
  | compare kind left right => kind.value (left.value inputs) (right.value inputs)

namespace Program

/-- What an expression writes leaves its value on top of the stack, whatever lies below. -/
theorem run_expression (inputs : Inputs) (expression : Expression) (stack : List Int) :
    run inputs expression.program stack = expression.value inputs :: stack := by
  induction expression generalizing stack with
  | operand content => exact content.step_code inputs stack
  | constant value => exact step_constant inputs value stack
  | join kind left right ihLeft ihRight =>
      rw [Expression.program, run_append, run_append, ihLeft, ihRight]
      exact step_connective inputs kind _ _ stack
  | compare kind left right ihLeft ihRight =>
      rw [Expression.program, run_append, run_append, ihLeft, ihRight]
      exact step_comparison inputs kind _ _ stack

/-- How a program runs as an expression: at every symbol the operands are there, and the value of
the expression is all that is left, so that the machine never falls back on a zero. -/
structure RunsAs (program : Program) (inputs : Inputs) (expression : Expression) : Prop where
  operands : ∀ before code rest, program = before ++ code :: rest →
    ∃ symbol, Symbol.ofCode? code = some symbol ∧ symbol.arity ≤ (run inputs before []).length
  ending : run inputs program [] = [expression.value inputs]
  value : program.value inputs = expression.value inputs

/-- A well-formed program of an expression runs as the expression. -/
theorem WellFormed.runsAs {expression : Expression} (wellFormed : expression.program.WellFormed)
    (inputs : Inputs) : expression.program.RunsAs inputs expression where
  operands before code rest split := by
    rw [split] at wellFormed
    obtain ⟨symbol, meaning, enough⟩ := wellFormed.exists_symbol
    exact ⟨symbol, meaning, enough inputs⟩
  ending := run_expression inputs expression []
  value := by
    rw [Program.value, run_expression]
    rfl

/-- A program that passes the check writes exactly one expression and runs as that one, for every
manager, requester and progression. -/
theorem runsAs_of_check {program : Program} (checked : program.check = .ok ()) :
    (∃! expression : Expression, expression.program = program) ∧
      ∀ expression : Expression, expression.program = program →
        ∀ (manager : Manager) (requester : String) (progression : Progression),
          program.RunsAs (manager.vars.inputs requester progression.read) expression := by
  refine ⟨(wellFormed_iff_existsUnique.1 checked).2, ?_⟩
  rintro expression rfl manager requester progression
  exact WellFormed.runsAs checked _

/-- A conjunction on the left of a comparison with a third term. -/
theorem runsAs_of_check_joined :
    Program.check [0, 1, -1, 2, -6] = .ok () ∧
      ∀ (manager : Manager) (requester : String) (progression : Progression),
        Program.value (manager.vars.inputs requester progression.read) [0, 1, -1, 2, -6] =
          truth (truth (progression.read ⟨0⟩ > 0 && progression.read ⟨1⟩ > 0) <
            progression.read ⟨2⟩) := by
  have checked : Program.check [0, 1, -1, 2, -6] = .ok () := rfl
  refine ⟨checked, fun manager requester progression => ?_⟩
  have runs := (runsAs_of_check checked).2
    (.compare .less (.join .and (.operand (.term ⟨0⟩)) (.operand (.term ⟨1⟩)))
      (.operand (.term ⟨2⟩))) rfl manager requester progression
  exact runs.value

end Program

end Randomizer
