import Randomizer.Program.Word

/-!
The stack machine that runs packed programs. The stack is a list, top first; an operand that is
missing reads as zero, and a value is true when it is positive. A program is checked for the stack
discipline: every symbol finds its operands and one value is left.
-/

namespace Randomizer

/-- What the leaves of a program read: the values of terms and of variable slots. -/
structure Inputs where
  term : Reading
  slot : Nat → Int

/-- The two top operands, the right one on top, and what lies below them. -/
def takeOperands : List Int → Int × Int × List Int
  | right :: left :: rest => (left, right, rest)
  | [right] => (0, right, [])
  | [] => (0, 0, [])

def truth (condition : Bool) : Int := if condition then 1 else 0

namespace Operator

/-- The value that a binary operator gives; constants ignore their operands. -/
def value (operator : Operator) (left right : Int) : Int :=
  match operator with
  | .and => truth (left > 0 && right > 0)
  | .or => truth (left > 0 || right > 0)
  | .always => 1
  | .never => 0
  | .equal => truth (left == right)
  | .less => truth (left < right)
  | .greater => truth (left > right)

def apply (operator : Operator) (stack : List Int) : List Int :=
  match operator.arity with
  | 0 => operator.value 0 0 :: stack
  | _ =>
    let (left, right, rest) := takeOperands stack
    operator.value left right :: rest

end Operator

namespace Program

/-- One symbol's work on the stack; a code without meaning pushes zero. -/
def step (inputs : Inputs) (stack : List Int) (code : Int) : List Int :=
  match Symbol.ofCode? code with
  | some (.term id) => inputs.term id :: stack
  | some (.slot index) => inputs.slot index :: stack
  | some (.operator kind) => kind.apply stack
  | none => 0 :: stack

def run (inputs : Inputs) (program : Program) (stack : List Int) : List Int :=
  program.foldl (step inputs) stack

/-- The value on top at the end, or zero when nothing was pushed. -/
def value (inputs : Inputs) (program : Program) : Int := (run inputs program []).headD 0

theorem run_append (inputs : Inputs) (first second : Program) (stack : List Int) :
    run inputs (first ++ second) stack = run inputs second (run inputs first stack) :=
  List.foldl_append

/-- The check from a given stack depth; a failure names the position of the offending symbol, or
the length when the end is reached with other than one value. -/
def checkFrom (depth position : Nat) : Program → Except Nat Unit
  | [] => if depth = 1 then .ok () else .error position
  | code :: rest =>
    match Symbol.ofCode? code with
    | none => .error position
    | some symbol =>
      if depth < symbol.arity then .error position
      else checkFrom (depth - symbol.arity + 1) (position + 1) rest

def check (program : Program) : Except Nat Unit := checkFrom 0 0 program

/-- A program is well formed when it runs without a missing operand and leaves one value. -/
def WellFormed (program : Program) : Prop := check program = .ok ()

end Program

end Randomizer
