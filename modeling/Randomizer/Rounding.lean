/-!
Rounding of ratios to nearest, ties to even.
-/

namespace Randomizer

/-- The nearest whole number to a ratio, the even one of two that are equally near. -/
def roundRatio (numerator denominator : Nat) : Nat :=
  let quotient := numerator / denominator
  let remainder := numerator % denominator
  if 2 * remainder > denominator ∨ (2 * remainder = denominator ∧ quotient % 2 = 1) then
    quotient + 1
  else quotient

/-- The rounded ratio is at most half away from the exact one. -/
theorem roundRatio_near (numerator : Nat) {denominator : Nat} (positive : 0 < denominator) :
    2 * (denominator * roundRatio numerator denominator) ≤ 2 * numerator + denominator ∧
      2 * numerator ≤ 2 * (denominator * roundRatio numerator denominator) + denominator := by
  have parts := Nat.div_add_mod numerator denominator
  have small := Nat.mod_lt numerator positive
  unfold roundRatio
  dsimp only
  split
  · rw [Nat.mul_add]
    omega
  · omega

/-- How many bits a ratio has beyond those that a number keeps. -/
def excessBits (kept numerator denominator : Nat) : Nat :=
  Nat.log2 (numerator / denominator) + 1 - kept

end Randomizer
