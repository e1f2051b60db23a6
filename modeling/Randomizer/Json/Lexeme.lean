import Randomizer.Json.Basic
import Randomizer.Json.Single
import Randomizer.Text.Number

/-!
The lexemes of JSON text: brackets, separators and the values that hold no others.
-/

namespace Randomizer.Json

inductive Lexeme where
  | openArray
  | closeArray
  | openObject
  | closeObject
  | comma
  | colon
  | scalar (value : Json)

namespace Lexeme

def isSpace (char : Char) : Bool :=
  char == ' ' || char == '\n' || char == '\t' || char == '\r'

def punctuation? : Char → Option Lexeme
  | '[' => some .openArray
  | ']' => some .closeArray
  | '\x7b' => some .openObject
  | '\x7d' => some .closeObject
  | ',' => some .comma
  | ':' => some .colon
  | _ => none

def escaped? : Char → Option Char
  | '"' => some '"'
  | '\\' => some '\\'
  | '/' => some '/'
  | 'b' => some '\x08'
  | 'f' => some '\x0c'
  | 'n' => some '\n'
  | 'r' => some '\r'
  | 't' => some '\t'
  | _ => none

def isLeading (unit : Nat) : Bool := 0xD800 ≤ unit && unit < 0xDC00

def isTrailing (unit : Nat) : Bool := 0xDC00 ≤ unit && unit < 0xE000

/-- The characters of a string up to its closing quote, and what follows. Units that form no
character are refused, and so are control characters that are not escaped. -/
def readString : List Char → Option (List Char × List Char)
  | [] => none
  | '"' :: rest => some ([], rest)
  | '\\' :: 'u' :: a :: b :: c :: d :: rest =>
    match Hexadecimal.value? [a, b, c, d] with
    | none => none
    | some unit =>
      if isLeading unit then
        match rest with
        | '\\' :: 'u' :: e :: f :: g :: h :: after =>
          match Hexadecimal.value? [e, f, g, h] with
          | none => none
          | some second =>
            if isTrailing second then
              let code := 0x10000 + (unit - 0xD800) * 0x400 + (second - 0xDC00)
              (readString after).map fun (chars, left) => (Char.ofNat code :: chars, left)
            else none
        | _ => none
      else if isTrailing unit then none
      else (readString rest).map fun (chars, left) => (Char.ofNat unit :: chars, left)
  | '\\' :: char :: rest =>
    match escaped? char with
    | none => none
    | some meant => (readString rest).map fun (chars, left) => (meant :: chars, left)
  | char :: rest =>
    if char.toNat < 0x20 then none
    else (readString rest).map fun (chars, left) => (char :: chars, left)

/-- A sign that may be there, and what follows. -/
def readSign (chars : List Char) : Bool × List Char :=
  match chars with
  | '-' :: rest => (true, rest)
  | '+' :: rest => (false, rest)
  | _ => (false, chars)

/-- The digits after a point, if there is one. -/
def readFraction (chars : List Char) : Option (Option (List Char) × List Char) :=
  match chars with
  | '.' :: rest =>
    if (rest.takeWhile Char.isDigit).isEmpty then none
    else some (some (rest.takeWhile Char.isDigit), rest.dropWhile Char.isDigit)
  | _ => some (none, chars)

/-- A power of ten: a sign that may be there, and digits. -/
def readPower (chars : List Char) : Option (Option Int × List Char) :=
  let (negative, body) := readSign chars
  if (body.takeWhile Char.isDigit).isEmpty then none
  else
    let value : Int := digitsValue (body.takeWhile Char.isDigit)
    some (some (if negative then -value else value), body.dropWhile Char.isDigit)

/-- The power of ten after its letter, if there is one. -/
def readExponent (chars : List Char) : Option (Option Int × List Char) :=
  match chars with
  | 'e' :: rest => readPower rest
  | 'E' :: rest => readPower rest
  | _ => some (none, chars)

/-- A number with digits appended as long as it fits in a word, and the digits left over. -/
def appendDigits (value : Nat) : List Char → Nat × List Char
  | [] => (value, [])
  | digit :: rest =>
    let next := 10 * value + (digit.toNat - '0'.toNat)
    if next < Nat.pow 2 64 then appendDigits next rest else (value, digit :: rest)

/-- The number that its parts write, if it is in range. It is whole when no fraction and no exponent
are written and a word holds it, with or without a sign; there is no negative zero in a word. Of
more digits than fit in a word only the leading ones count. -/
def assemble? (negative : Bool) (whole : List Char) (fraction : Option (List Char))
    (exponent : Option Int) : Option Json :=
  let decimals := fraction.getD []
  let (front, dropped) := appendDigits 0 whole
  let (digits, ignored) := appendDigits front decimals
  let scale := exponent.getD 0 + dropped.length + ignored.length - decimals.length
  let isWord := fraction.isNone && exponent.isNone && dropped.isEmpty
  if isWord && !negative then some (.integer digits)
  else if isWord && 0 < digits && digits ≤ Nat.pow 2 63 then some (.integer (-digits))
  else (Binary64.ofDecimal? digits scale).map fun _ => .decimal negative digits scale

/-- The digits before a point and what follows them; a leading zero stands alone. -/
def readWhole (chars : List Char) : Option (List Char × List Char) :=
  match chars with
  | '0' :: rest => some (['0'], rest)
  | first :: rest =>
    if first.isDigit then
      some (first :: rest.takeWhile Char.isDigit, rest.dropWhile Char.isDigit)
    else none
  | [] => none

/-- A number without its sign, and what follows. -/
def readUnsigned (negative : Bool) (chars : List Char) : Option (Json × List Char) := do
  let (whole, afterWhole) ← readWhole chars
  let (fraction, afterFraction) ← readFraction afterWhole
  let (exponent, after) ← readExponent afterFraction
  let number ← assemble? negative whole fraction exponent
  return (number, after)

def readNumber : List Char → Option (Json × List Char)
  | '-' :: rest => readUnsigned true rest
  | chars => readUnsigned false chars

/-- A value that holds no others, at the start of the characters. -/
def readScalar : List Char → Option (Json × List Char)
  | '"' :: rest => (readString rest).map fun (chars, left) => (.string (String.ofList chars), left)
  | 't' :: 'r' :: 'u' :: 'e' :: rest => some (.bool true, rest)
  | 'f' :: 'a' :: 'l' :: 's' :: 'e' :: rest => some (.bool false, rest)
  | 'n' :: 'u' :: 'l' :: 'l' :: rest => some (.null, rest)
  | chars => readNumber chars

theorem length_lt_of_readString {chars meant left : List Char}
    (read : readString chars = some (meant, left)) : left.length < chars.length := by
  fun_induction readString chars generalizing meant left <;> simp_all <;> grind

theorem length_readSign_le (chars : List Char) : (readSign chars).2.length ≤ chars.length := by
  unfold readSign
  split <;> simp

theorem length_dropWhile_le (test : Char → Bool) (chars : List Char) :
    (chars.dropWhile test).length ≤ chars.length :=
  (List.dropWhile_sublist _).length_le

theorem length_le_of_readFraction {chars left : List Char} {fraction : Option (List Char)}
    (read : readFraction chars = some (fraction, left)) : left.length ≤ chars.length := by
  unfold readFraction at read
  split at read
  · next rest =>
    have shorter := length_dropWhile_le Char.isDigit rest
    split at read
    · cases read
    · cases read
      exact Nat.le_succ_of_le shorter
  · cases read
    exact Nat.le_refl _

theorem length_le_of_readPower {chars left : List Char} {exponent : Option Int}
    (read : readPower chars = some (exponent, left)) : left.length ≤ chars.length := by
  have signLess := length_readSign_le chars
  have shorter := length_dropWhile_le Char.isDigit (readSign chars).2
  unfold readPower at read
  dsimp only at read
  split at read
  · cases read
  · cases read
    exact Nat.le_trans shorter signLess

theorem length_le_of_readExponent {chars left : List Char} {exponent : Option Int}
    (read : readExponent chars = some (exponent, left)) : left.length ≤ chars.length := by
  unfold readExponent at read
  split at read
  · exact Nat.le_succ_of_le (length_le_of_readPower read)
  · exact Nat.le_succ_of_le (length_le_of_readPower read)
  · cases read
    exact Nat.le_refl _

theorem length_lt_of_readWhole {chars whole left : List Char}
    (read : readWhole chars = some (whole, left)) : left.length < chars.length := by
  unfold readWhole at read
  split at read
  · cases read
    exact Nat.lt_succ_self _
  · next first rest _ =>
    have shorter := length_dropWhile_le Char.isDigit rest
    split at read
    · cases read
      exact Nat.lt_succ_of_le shorter
    · cases read
  · cases read

theorem length_lt_of_readUnsigned {negative : Bool} {chars left : List Char} {number : Json}
    (read : readUnsigned negative chars = some (number, left)) :
    left.length < chars.length := by
  unfold readUnsigned at read
  simp only [Option.bind_eq_bind, Option.bind_eq_some_iff, Prod.exists] at read
  obtain ⟨whole, afterWhole, first, fraction, afterFraction, second, exponent, after, third,
    written, _, same⟩ := read
  have one := length_lt_of_readWhole first
  have two := length_le_of_readFraction second
  have three := length_le_of_readExponent third
  cases same
  omega

theorem length_lt_of_readNumber {chars left : List Char} {number : Json}
    (read : readNumber chars = some (number, left)) : left.length < chars.length := by
  unfold readNumber at read
  split at read
  · have := length_lt_of_readUnsigned read
    simp only [List.length_cons]
    omega
  · exact length_lt_of_readUnsigned read

theorem length_lt_of_readScalar {chars left : List Char} {value : Json}
    (read : readScalar chars = some (value, left)) : left.length < chars.length := by
  unfold readScalar at read
  split at read
  · next rest =>
    obtain ⟨⟨meant, after⟩, found, equal⟩ := Option.map_eq_some_iff.1 read
    have := length_lt_of_readString found
    simp_all
    omega
  all_goals first | exact length_lt_of_readNumber read | (simp_all; omega)

/-- The lexemes of the characters. -/
def scan (chars : List Char) : Option (List Lexeme) :=
  match chars with
  | [] => some []
  | char :: rest =>
    if isSpace char then scan rest
    else
      match punctuation? char with
      | some lexeme => (scan rest).map (lexeme :: ·)
      | none =>
        match read : readScalar (char :: rest) with
        | none => none
        | some (value, after) =>
          have : after.length < (char :: rest).length := length_lt_of_readScalar read
          (scan after).map (.scalar value :: ·)
termination_by chars.length
decreasing_by
  · exact Nat.lt_succ_self _
  · exact Nat.lt_succ_self _
  · exact this

end Lexeme

end Randomizer.Json
