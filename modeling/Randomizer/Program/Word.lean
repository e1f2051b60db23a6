import Randomizer.Amount
import Randomizer.Term

/-!
The words of packed programs: symbols and the codes that stand for them. Terms, operators and
variables share one line of integers: ids from zero upward, operators from -1 to -7, variable slots
from -100 downward. The codes between mean nothing. As a signed 32-bit word, an id or slot keeps its
low 32 bits.
-/

namespace Randomizer

inductive Operator where
  | and
  | or
  | always
  | never
  | equal
  | less
  | greater
  deriving DecidableEq, Repr

namespace Operator

def code : Operator → Int
  | .and => -1
  | .or => -2
  | .always => -3
  | .never => -4
  | .equal => -5
  | .less => -6
  | .greater => -7

def ofCode? : Int → Option Operator
  | -1 => some .and
  | -2 => some .or
  | -3 => some .always
  | -4 => some .never
  | -5 => some .equal
  | -6 => some .less
  | -7 => some .greater
  | _ => none

/-- How many operands an operator takes off the stack. -/
def arity : Operator → Nat
  | .always | .never => 0
  | _ => 2

def isComparison : Operator → Bool
  | .equal | .less | .greater => true
  | _ => false

def name : Operator → String
  | .and => "And"
  | .or => "Or"
  | .always => "Any"
  | .never => "None"
  | .equal => "Eq"
  | .less => "Lt"
  | .greater => "Gt"

@[simp] theorem ofCode?_code (operator : Operator) : ofCode? operator.code = some operator := by
  cases operator <;> rfl

theorem code_bounds (operator : Operator) : -7 ≤ operator.code ∧ operator.code ≤ -1 := by
  cases operator <;> decide

end Operator

inductive Symbol where
  | term (id : TermId)
  | slot (index : Nat)
  | operator (kind : Operator)
  deriving DecidableEq, Repr

namespace Symbol

def code : Symbol → Int
  | .term id => id.index
  | .slot index => -100 - index
  | .operator kind => kind.code

def ofCode? (code : Int) : Option Symbol :=
  if 0 ≤ code then some (.term ⟨code.toNat⟩)
  else if code ≤ -100 then some (.slot (-100 - code).toNat)
  else (Operator.ofCode? code).map .operator

def term? : Symbol → Option TermId
  | .term id => some id
  | _ => none

def slot? : Symbol → Option Nat
  | .slot index => some index
  | _ => none

def arity : Symbol → Nat
  | .operator kind => kind.arity
  | _ => 0

def name : Symbol → String
  | .term id => s!"Term({id.index})"
  | .slot index => s!"Var({index})"
  | .operator kind => kind.name

@[simp] theorem ofCode?_code (symbol : Symbol) : ofCode? symbol.code = some symbol := by
  cases symbol with
  | term id => simp [ofCode?, code]
  | slot index =>
      have negative : ¬ (0 : Int) ≤ -100 - index := by omega
      have low : (-100 - index : Int) ≤ -100 := by omega
      have indexBack : (-100 - (-100 - (index : Int))).toNat = index := by omega
      simp only [ofCode?, code, if_neg negative, if_pos low, indexBack]
  | operator kind =>
      have bounds := kind.code_bounds
      have negative : ¬ (0 : Int) ≤ kind.code := by omega
      have high : ¬ kind.code ≤ -100 := by omega
      simp only [ofCode?, code, if_neg negative, if_neg high, Operator.ofCode?_code,
        Option.map_some]

end Symbol

def TermId.word (id : TermId) : Int := Amount.wrap id.index

/-- The word of a variable's slot, refused when the subtraction from the first slot's word leaves
the range. -/
def Symbol.slotWord (index : Nat) : Except Overflow Int :=
  let word := -100 - Amount.wrap index
  if Amount.InRange word then .ok word else .error .subtract

/-- A packed program, its symbols in the order in which they run. -/
abbrev Program := List Int

end Randomizer
