import Randomizer.Binary32.Basic
import Randomizer.Rounding

/-!
Arithmetic on single-precision numbers. Each operation computes the exact result as a ratio and
rounds once, to nearest with ties to even. Ratios count quanta, the least positive number 2^-149.
-/

namespace Randomizer.Binary32

/-- One in quanta. -/
def unit : Nat := Nat.pow 2 149

/-- The absolute value of a finite number in quanta. -/
def quanta (number : Binary32) : Nat :=
  let exponent := number.magnitude / Nat.pow 2 23
  let fraction := number.magnitude % Nat.pow 2 23
  if exponent = 0 then fraction else (Nat.pow 2 23 + fraction) * Nat.pow 2 (exponent - 1)

/-- The magnitude nearest to a ratio of quanta. A number of 24 bits is kept whole; each further bit
of length raises the exponent by one, and a carry of the rounding runs into the exponent. -/
def magnitudeOfRatio (numerator denominator : Nat) : Nat :=
  let excess := excessBits 24 numerator denominator
  min infiniteMagnitude
    (excess * Nat.pow 2 23 + roundRatio numerator (denominator * Nat.pow 2 excess))

def ofRatio (negative : Bool) (numerator denominator : Nat) : Binary32 :=
  ofMagnitude negative (magnitudeOfRatio numerator denominator)

def ofNat (number : Nat) : Binary32 := ofRatio false (number * unit) 1

/-- The result of an operation that has none, such as the difference of two infinities. -/
def invalid : Binary32 := ⟨0xFFC00000⟩

/-- The operand that makes the result not a number: the first one that is none itself, with its
quiet bit set. -/
def propagated? (first second : Binary32) : Option Binary32 :=
  if first.isNaN then some ⟨first.bits ||| 0x00400000⟩
  else if second.isNaN then some ⟨second.bits ||| 0x00400000⟩
  else none

/-- The sum of two numbers; a sum of zero is negative only when both are. -/
def addNumbers (first second : Binary32) : Binary32 :=
  if first.isInfinite then
    if second.isInfinite && first.isNegative != second.isNegative then invalid else first
  else if second.isInfinite then second
  else
    let exact (number : Binary32) : Int :=
      if number.isNegative then -(number.quanta : Int) else number.quanta
    let total := exact first + exact second
    if total = 0 then ofMagnitude (first.isNegative && second.isNegative) 0
    else ofRatio (total < 0) total.natAbs 1

def add (first second : Binary32) : Binary32 :=
  (propagated? first second).getD (addNumbers first second)

def sub (first second : Binary32) : Binary32 :=
  (propagated? first second).getD (addNumbers first second.neg)

def mul (first second : Binary32) : Binary32 :=
  (propagated? first second).getD <|
    let negative := first.isNegative != second.isNegative
    if first.isInfinite || second.isInfinite then
      if first.isZero || second.isZero then invalid else infinity negative
    else ofRatio negative (first.quanta * second.quanta) unit

def div (first second : Binary32) : Binary32 :=
  (propagated? first second).getD <|
    let negative := first.isNegative != second.isNegative
    if first.isInfinite then
      if second.isInfinite then invalid else infinity negative
    else if second.isInfinite then ofMagnitude negative 0
    else if second.isZero then
      if first.isZero then invalid else infinity negative
    else ofRatio negative (first.quanta * unit) second.quanta

instance : Add Binary32 := ⟨add⟩

instance : Sub Binary32 := ⟨sub⟩

instance : Mul Binary32 := ⟨mul⟩

instance : Div Binary32 := ⟨div⟩

instance : Neg Binary32 := ⟨neg⟩

end Randomizer.Binary32
