/-!
Single-precision numbers of IEEE 754, held as their bits: the sign, then eight bits of exponent,
then the fraction. Two orders are used. The numeric order leaves out what is not a number and takes
both zeros as equal; the total order ranks every bit pattern.
-/

namespace Randomizer

structure Binary32 where
  bits : UInt32
  deriving DecidableEq, Repr

namespace Binary32

def isNegative (number : Binary32) : Bool := number.bits.toNat ≥ 0x80000000

/-- The bits below the sign, as a number. -/
def magnitude (number : Binary32) : Nat := number.bits.toNat % 0x80000000

/-- The magnitude of infinity; larger magnitudes are not numbers. -/
def infiniteMagnitude : Nat := 0x7F800000

def isNaN (number : Binary32) : Bool := number.magnitude > infiniteMagnitude

def isInfinite (number : Binary32) : Bool := number.magnitude = infiniteMagnitude

def isZero (number : Binary32) : Bool := number.magnitude = 0

def ofMagnitude (negative : Bool) (magnitude : Nat) : Binary32 :=
  ⟨UInt32.ofNat (if negative then 0x80000000 + magnitude else magnitude)⟩

def zero : Binary32 := ⟨0⟩

def negativeZero : Binary32 := ⟨0x80000000⟩

def infinity (negative : Bool) : Binary32 := ofMagnitude negative infiniteMagnitude

instance : Inhabited Binary32 := ⟨zero⟩

/-- The place of a number among all numbers: magnitudes grow with the absolute value. -/
def signed (number : Binary32) : Int :=
  if number.isNegative then -(number.magnitude : Int) else number.magnitude

/-- The place of a bit pattern among all bit patterns, the negative zero below the positive. -/
def rank (number : Binary32) : Int :=
  if number.isNegative then -(number.magnitude : Int) - 1 else number.magnitude

/-- The total order of all bit patterns. -/
def compareTotal (first second : Binary32) : Ordering := compare first.rank second.rank

/-- Numeric comparison; what is not a number is below nothing and nothing is below it. -/
def less (first second : Binary32) : Bool :=
  !first.isNaN && !second.isNaN && first.signed < second.signed

def atMost (first second : Binary32) : Bool :=
  !first.isNaN && !second.isNaN && first.signed ≤ second.signed

/-- Numeric equality: the zeros are equal, and what is not a number equals nothing. -/
def equal (first second : Binary32) : Bool :=
  !first.isNaN && !second.isNaN && first.signed == second.signed

instance : BEq Binary32 := ⟨equal⟩

def neg (number : Binary32) : Binary32 := ⟨number.bits ^^^ 0x80000000⟩

end Binary32

end Randomizer
