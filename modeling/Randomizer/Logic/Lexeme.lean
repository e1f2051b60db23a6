import Randomizer.Logic.ParseFault
import Randomizer.Text.Character

/-!
The lexemes of logic text. Names are runs of characters that are neither blank nor reserved; a name
followed by a comparison or a question mark, with or without blanks between, is one atom with the
name after it.
-/

namespace Randomizer

inductive Lexeme where
  | openGroup
  | closeGroup
  | connective (kind : Connective)
  | atom (token : Token)
  deriving DecidableEq, Repr

namespace Lexeme

def reserved : List Char := ['+', '|', '(', ')', '=', '<', '>', '*', '?']

def isNameChar (char : Char) : Bool := !isBlank char && !reserved.contains char

def ofChar? : Char → Option Lexeme
  | '(' => some .openGroup
  | ')' => some .closeGroup
  | '+' => some (.connective .and)
  | '|' => some (.connective .or)
  | _ => none

/-- What may join two names into one atom. -/
inductive Joint where
  | comparison (kind : Comparison)
  | fallback
  deriving DecidableEq, Repr

def Joint.ofChar? (char : Char) : Option Joint :=
  if char = '?' then some .fallback else (Comparison.ofChar? char).map .comparison

/-- Compared names are kept as they are; the names of a fallback are read like bare ones. -/
def Joint.token (joint : Joint) (isMacro : String → Bool) (left right : String) : Token :=
  match joint with
  | .comparison kind => .comparison kind left right
  | .fallback => .fallback (.ofName isMacro left) (.ofName isMacro right)

/-- The name at the start of the characters, empty when there is none. -/
def nameAhead (chars : List Char) : String := String.ofList (chars.takeWhile isNameChar)

def afterName (chars : List Char) : List Char := chars.dropWhile isNameChar

def afterBlanks (chars : List Char) : List Char := chars.dropWhile isBlank

/-- The atom that starts with a character, and the characters after it. The size is that of the
whole text, so what is left gives the position. -/
def readAtom (isMacro : String → Bool) (size : Nat) (char : Char) (rest : List Char) :
    Except ParseFault (Token × List Char) :=
  if char = '*' then
    if nameAhead rest = "" then .error (.expectedTarget (size - rest.length))
    else .ok (.reference (nameAhead rest), afterName rest)
  else if isNameChar char then
    let left := nameAhead (char :: rest)
    let bare := .ok (.ofName isMacro left, afterName rest)
    match afterBlanks (afterName rest) with
    | [] => bare
    | symbol :: tail =>
      match Joint.ofChar? symbol with
      | none => bare
      | some joint =>
        let ahead := afterBlanks tail
        if nameAhead ahead = "" then
          .error (.expectedRightOperand symbol (size - ahead.length))
        else .ok (joint.token isMacro left (nameAhead ahead), afterName ahead)
  else .error (.unexpectedSymbol char (size - (rest.length + 1)))

theorem length_afterName_le (chars : List Char) : (afterName chars).length ≤ chars.length :=
  (List.dropWhile_sublist _).length_le

theorem length_afterBlanks_le (chars : List Char) :
    (afterBlanks chars).length ≤ chars.length :=
  (List.dropWhile_sublist _).length_le

theorem length_le_of_readAtom {isMacro : String → Bool} {size : Nat} {char : Char}
    {rest after : List Char} {token : Token}
    (read : readAtom isMacro size char rest = .ok (token, after)) :
    after.length ≤ rest.length := by
  have ofRest := length_afterName_le rest
  unfold readAtom at read
  split at read
  · split at read
    · cases read
    · cases read
      exact ofRest
  · split at read
    · dsimp only at read
      split at read
      · cases read
        exact ofRest
      · next symbol tail found =>
        have tailLength := length_afterBlanks_le (afterName rest)
        rw [found, List.length_cons] at tailLength
        split at read
        · cases read
          exact ofRest
        · split at read
          · cases read
          · cases read
            have ahead := length_afterBlanks_le tail
            have final := length_afterName_le (afterBlanks tail)
            omega
    · cases read

/-- The lexemes of the characters in order; the first fault ends the scan. -/
def scan (isMacro : String → Bool) (size : Nat) :
    List Char → Except ParseFault (List Lexeme)
  | [] => .ok []
  | char :: rest =>
    if isBlank char then scan isMacro size rest
    else
      match ofChar? char with
      | some lexeme => (scan isMacro size rest).map (lexeme :: ·)
      | none =>
        match read : readAtom isMacro size char rest with
        | .error fault => .error fault
        | .ok (token, after) =>
          have : after.length ≤ rest.length := length_le_of_readAtom read
          (scan isMacro size after).map (.atom token :: ·)
termination_by chars => chars.length
decreasing_by
  · simp
  · simp
  · simp only [List.length_cons]
    omega

def ofText (isMacro : String → Bool) (text : String) : Except ParseFault (List Lexeme) :=
  scan isMacro text.length text.toList

end Lexeme

end Randomizer
