import Randomizer.Amount

/-!
Numbers in text. Amounts are written in decimal, an optional sign and at least one digit;
hexadecimal digits are read in both cases and written in lower case.
-/

namespace Randomizer

/-- The number that decimal digits write. -/
def digitsValue (digits : List Char) : Nat :=
  digits.foldl (fun value digit => 10 * value + (digit.toNat - '0'.toNat)) 0

/-- An unsigned number in decimal; no digits at all write none. -/
def naturalOf? (digits : List Char) : Option Nat :=
  if digits.isEmpty || !digits.all Char.isDigit then none else some (digitsValue digits)

/-- An amount in decimal, if the text is one and the number is in range. -/
def Amount.ofText? (text : String) : Option Int :=
  let written : Option Int :=
    match text.toList with
    | '-' :: digits => (naturalOf? digits).map fun value => -(value : Int)
    | '+' :: digits => (naturalOf? digits).map fun value => (value : Int)
    | digits => (naturalOf? digits).map fun value => (value : Int)
  written.filter fun value => Amount.InRange value

namespace Hexadecimal

def digit? (char : Char) : Option Nat :=
  if '0' ≤ char ∧ char ≤ '9' then some (char.toNat - '0'.toNat)
  else if 'a' ≤ char ∧ char ≤ 'f' then some (char.toNat - 'a'.toNat + 10)
  else if 'A' ≤ char ∧ char ≤ 'F' then some (char.toNat - 'A'.toNat + 10)
  else none

/-- The number that digits write; no digits write zero. -/
def value? (digits : List Char) : Option Nat :=
  digits.foldlM (fun value digit => (digit? digit).map (16 * value + ·)) 0

/-- The digits of a number without leading zeros. -/
def text (number : Nat) : String := String.ofList (Nat.toDigits 16 number)

/-- The digits of a number, with zeros in front up to a width. -/
def padded (width number : Nat) : String :=
  String.ofList (List.replicate (width - (text number).length) '0') ++ text number

end Hexadecimal

end Randomizer
