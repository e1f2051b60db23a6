/-!
The tokens of logic text: connectives and the atoms that they join.
-/

namespace Randomizer

inductive Connective where
  | or
  | and
  deriving DecidableEq, Repr

namespace Connective

/-- The conjunction binds tighter than the disjunction. -/
def strength : Connective → Nat
  | .or => 0
  | .and => 1

def text : Connective → String
  | .or => "|"
  | .and => "+"

end Connective

inductive Comparison where
  | equal
  | less
  | greater
  deriving DecidableEq, Repr

namespace Comparison

def symbol : Comparison → Char
  | .equal => '='
  | .less => '<'
  | .greater => '>'

def ofChar? : Char → Option Comparison
  | '=' => some .equal
  | '<' => some .less
  | '>' => some .greater
  | _ => none

end Comparison

inductive Token where
  | connective (kind : Connective)
  /-- The name of a term or a variable. -/
  | bare (name : String)
  | comparison (kind : Comparison) (left right : String)
  | constant (value : Bool)
  /-- A clause of the macro table, put in place when compiled. -/
  | macroName (name : String)
  /-- The logic of another definition. -/
  | reference (target : String)
  /-- The first atom when it resolves, otherwise the second. -/
  | fallback (first second : Token)
  deriving DecidableEq, Repr

namespace Token

def isConnective : Token → Bool
  | .connective _ => true
  | _ => false

def text : Token → String
  | .connective kind => kind.text
  | .bare name => name
  | .comparison kind left right => left ++ kind.symbol.toString ++ right
  | .constant true => "TRUE"
  | .constant false => "FALSE"
  | .macroName name => name
  | .reference target => "*" ++ target
  | .fallback first second => first.text ++ "?" ++ second.text

/-- What a bare name stands for: a constant, a macro when it is one, or itself. -/
def ofName (isMacro : String → Bool) (name : String) : Token :=
  if name = "TRUE" ∨ name = "ANY" then .constant true
  else if name = "FALSE" ∨ name = "NONE" then .constant false
  else if isMacro name then .macroName name
  else .bare name

end Token

end Randomizer
