import Randomizer.Binary32.Arithmetic
import Randomizer.Json.Basic

/-!
Numbers in JSON. A number is read in double precision of IEEE 754. Its magnitude counts quanta, the
least positive number 2^-1074, and every operation rounds once. A decimal is read in two roundings
and one operation: its digits, the power of ten, and their product or quotient. The result may
differ from the nearest number in the last place, and a decimal just below the limit may come out of
range. In single precision a number is rounded once more.
-/

namespace Randomizer.Binary64

/-- One in quanta. -/
def unit : Nat := Nat.pow 2 1074

/-- The least magnitude out of range. -/
def limit : Nat := Nat.pow 2 1024 * unit

/-- The magnitude nearest to a ratio of quanta, of at most 53 bits and any length. -/
def nearest (numerator denominator : Nat) : Nat :=
  let excess := excessBits 53 numerator denominator
  roundRatio numerator (denominator * Nat.pow 2 excess) * Nat.pow 2 excess

def ofNat (number : Nat) : Nat := nearest (number * unit) 1

def mul (first second : Nat) : Nat := nearest (first * second) unit

def div (first second : Nat) : Nat := nearest (first * unit) second

/-- The greatest power of ten in range. -/
def greatestPower : Nat := 308

def powerOfTen (power : Nat) : Nat := ofNat (Nat.pow 10 power)

/-- A magnitude divided by a power of ten, of which no step takes more than the greatest. -/
def shrink (magnitude power : Nat) : Nat :=
  if power ≤ greatestPower then div magnitude (powerOfTen power)
  else if magnitude = 0 then 0
  else shrink (div magnitude (powerOfTen greatestPower)) (power - greatestPower)
termination_by power
decreasing_by
  unfold greatestPower at *
  omega

/-- The digits times a power of ten, if that is in range. -/
def ofDecimal? (digits : Nat) : Int → Option Nat
  | .ofNat power =>
    if digits = 0 then some 0
    else if greatestPower < power then none
    else
      let product := mul (ofNat digits) (powerOfTen power)
      if product < limit then some product else none
  | .negSucc power => some (shrink (ofNat digits) (power + 1))

def toSingle (negative : Bool) (magnitude : Nat) : Binary32 :=
  .ofRatio negative (magnitude * Binary32.unit) unit

end Randomizer.Binary64

namespace Randomizer.Json

/-- A number of JSON in single precision. -/
def single? : Json → Option Binary32
  | integer value => some (Binary64.toSingle (value < 0) (Binary64.ofNat value.natAbs))
  | decimal negative digits exponent =>
    (Binary64.ofDecimal? digits exponent).map (Binary64.toSingle negative)
  | _ => none

end Randomizer.Json
