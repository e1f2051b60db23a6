import Randomizer.Amount
import Randomizer.Logic.Variable

/-!
Formulas: variables that are written as a dollar sign, a kind, a colon and an argument.
-/

namespace Randomizer

inductive Formula where
  | sum (terms : List TermId)
  | double (term : TermId)
  /-- Whether it is the named definition that asks. -/
  | requester (name : String)
  deriving DecidableEq, Repr

namespace Formula

def ofText? (table : TermTable) (text : String) : Option Formula :=
  match text.toList.span (· ≠ ':') with
  | (kind, ':' :: argument) =>
    let argument := String.ofList argument
    match String.ofList kind with
    | "$sum" => ((argument.splitOn ",").mapM table.idOf?).map sum
    | "$double" => (table.idOf? argument).map double
    | "$requester" => some (requester argument)
    | _ => none
  | _ => none

/-- The value, in which totals past the range of amounts wrap around. -/
def value (requesting : String) (reading : Reading) : Formula → Int
  | sum terms => terms.foldl (fun total term => Amount.wrap (total + reading term)) 0
  | double term => Amount.wrap (2 * reading term)
  | requester name => truth (requesting == name)

def terms : Formula → List TermId
  | sum terms => terms
  | double term => [term]
  | requester _ => []

end Formula

/-- Formulas are variables, under their whole text. -/
def Resolver.formulas : Resolver := fun table text =>
  (Formula.ofText? table text).map fun formula =>
    ⟨text, fun requesting reading => formula.value requesting reading, formula.terms⟩

end Randomizer
