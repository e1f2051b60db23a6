import Randomizer.Logic.Token

/-!
Clauses: the tokens of one expression, each connective after its two operands. A clause prints with
no more parentheses than the strengths of its connectives ask for.
-/

namespace Randomizer

structure Clause where
  tokens : List Token
  deriving DecidableEq, Repr

namespace Clause

instance : Inhabited Clause := ⟨⟨[]⟩⟩

/-- The check from a given number of operands; a failure names the connective that lacks one, or
the length when the end is reached with other than one expression. -/
def checkFrom (depth position : Nat) : List Token → Except Nat Unit
  | [] => if depth = 1 then .ok () else .error position
  | .connective _ :: rest =>
    if depth < 2 then .error position else checkFrom (depth - 1) (position + 1) rest
  | _ :: rest => checkFrom (depth + 1) (position + 1) rest

def check (tokens : List Token) : Except Nat Unit := checkFrom 0 0 tokens

def ofTokens (tokens : List Token) : Except Nat Clause :=
  (check tokens).map fun _ => ⟨tokens⟩

def atom (token : Token) : Clause := ⟨[token]⟩

def size (clause : Clause) : Nat := clause.tokens.length

/-- Both clauses joined by a connective. -/
def combine (first second : Clause) (kind : Connective) : Clause :=
  ⟨first.tokens ++ second.tokens ++ [.connective kind]⟩

/-- Printed text with the strength of its outermost connective. -/
structure Phrase where
  text : String
  strength : Nat
  deriving DecidableEq, Repr

namespace Phrase

/-- What stands for an operand that is missing. -/
def missing : Phrase := ⟨"", 0⟩

/-- The phrase of an atom, which binds tighter than every connective. -/
def ofAtom (token : Token) : Phrase := ⟨token.text, 2⟩

/-- The text as an operand of a connective of the given strength. -/
def within (phrase : Phrase) (strength : Nat) : String :=
  if phrase.strength < strength then "(" ++ phrase.text ++ ")" else phrase.text

def join (kind : Connective) (left right : Phrase) : Phrase :=
  ⟨left.within kind.strength ++ " " ++ kind.text ++ " " ++ right.within kind.strength,
    kind.strength⟩

/-- One token's work on the phrases read so far, the latest on top. -/
def push (stack : List Phrase) : Token → List Phrase
  | .connective kind =>
    match stack with
    | right :: left :: rest => join kind left right :: rest
    | [right] => [join kind missing right]
    | [] => [join kind missing missing]
  | token => ofAtom token :: stack

end Phrase

def text (clause : Clause) : String :=
  match clause.tokens.foldl Phrase.push [] with
  | phrase :: _ => phrase.text
  | [] => ""

end Clause

end Randomizer
