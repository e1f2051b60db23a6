/-!
The whole numbers that terms hold, thresholds compare and programs are written in.
-/

namespace Randomizer

/-- An amount lies in the signed 32-bit range. -/
def Amount.InRange (amount : Int) : Prop :=
  -2147483648 ≤ amount ∧ amount ≤ 2147483647

instance (amount : Int) : Decidable (Amount.InRange amount) :=
  inferInstanceAs (Decidable (_ ∧ _))

/-- The signed number with the same low 32 bits. -/
def Amount.wrap (amount : Int) : Int := amount.bmod 4294967296

/-- The three ways in which arithmetic on amounts leaves their range. -/
inductive Overflow where
  | add
  | subtract
  | negate
  deriving DecidableEq, Repr

def Overflow.message : Overflow → String
  | .add => "attempt to add with overflow"
  | .subtract => "attempt to subtract with overflow"
  | .negate => "attempt to negate with overflow"

end Randomizer
