import Randomizer.Logic.Token

/-!
What is wrong with logic text that is not an expression. Positions count characters from zero.
-/

namespace Randomizer

inductive ParseFault where
  | expectedTarget (position : Nat)
  | unexpectedSymbol (symbol : Char) (position : Nat)
  | expectedRightOperand (symbol : Char) (position : Nat)
  | missingConnective (before : Token)
  | missingConnectiveBeforeGroup
  | missingOperand (before : Connective)
  | unexpectedClose
  | unbalancedClose
  | unbalancedOpen
  | unexpectedEnd
  deriving DecidableEq, Repr

def ParseFault.message : ParseFault → String
  | .expectedTarget position => s!"expected reference target at {position}"
  | .unexpectedSymbol symbol position => s!"unexpected '{symbol}' at {position}"
  | .expectedRightOperand symbol position =>
      s!"expected right operand of '{symbol}' at {position}"
  | .missingConnective before => "missing operator before " ++ before.text
  | .missingConnectiveBeforeGroup => "missing operator before '('"
  | .missingOperand before => "missing operand before '" ++ before.text ++ "'"
  | .unexpectedClose => "unexpected ')'"
  | .unbalancedClose => "unbalanced ')'"
  | .unbalancedOpen => "unbalanced '('"
  | .unexpectedEnd => "unexpected end of logic"

end Randomizer
