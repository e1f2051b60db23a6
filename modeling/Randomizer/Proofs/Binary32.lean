import Mathlib.Data.Nat.Log
import Mathlib.Order.MinMax
import Randomizer.Binary32.Arithmetic

/-!
Sums of single-precision numbers keep the numeric order. Rounding is monotone, also where a carry
runs into the next exponent, so a sum with a fixed summand never falls when the other one grows.
-/

namespace Randomizer

section Rounding

variable {numerator larger denominator : Nat}

/-- Rounding never falls below the quotient. -/
theorem div_le_roundRatio (numerator denominator : Nat) :
    numerator / denominator ≤ roundRatio numerator denominator := by
  unfold roundRatio
  dsimp only
  split <;> omega

/-- Rounding goes up by one at most. -/
theorem roundRatio_le_succ (numerator denominator : Nat) :
    roundRatio numerator denominator ≤ numerator / denominator + 1 := by
  unfold roundRatio
  dsimp only
  split <;> omega

/-- A ratio that is whole is kept. -/
theorem roundRatio_mul (positive : 0 < denominator) (whole : Nat) :
    roundRatio (denominator * whole) denominator = whole := by
  unfold roundRatio
  rw [Nat.mul_mod_right, Nat.mul_div_cancel_left whole positive]
  dsimp only
  rw [if_neg]
  omega

/-- Rounding follows the order of the numerators. -/
theorem roundRatio_mono (denominator : Nat) (grows : numerator ≤ larger) :
    roundRatio numerator denominator ≤ roundRatio larger denominator := by
  have quotients : numerator / denominator ≤ larger / denominator := Nat.div_le_div_right grows
  rcases Nat.lt_or_eq_of_le quotients with lower | same
  · calc roundRatio numerator denominator
        ≤ numerator / denominator + 1 := roundRatio_le_succ _ _
      _ ≤ larger / denominator := lower
      _ ≤ roundRatio larger denominator := div_le_roundRatio _ _
  · have parts := Nat.div_add_mod numerator denominator
    have largerParts := Nat.div_add_mod larger denominator
    rw [same] at parts
    have remainders : numerator % denominator ≤ larger % denominator := by omega
    unfold roundRatio
    dsimp only
    rw [same]
    split <;> split <;> omega

/-- A whole number above a ratio is above its rounding. -/
theorem roundRatio_le_of_le_mul (positive : 0 < denominator) {whole : Nat}
    (bounded : numerator ≤ denominator * whole) : roundRatio numerator denominator ≤ whole := by
  rw [← roundRatio_mul positive whole]
  exact roundRatio_mono _ bounded

/-- A whole number below a ratio is below its rounding. -/
theorem le_roundRatio_of_mul_le (positive : 0 < denominator) {whole : Nat}
    (bounded : denominator * whole ≤ numerator) : whole ≤ roundRatio numerator denominator := by
  rw [← roundRatio_mul positive whole]
  exact roundRatio_mono _ bounded

/-- With the excess taken off, a ratio has no more bits than are kept. -/
theorem lt_two_pow_excessBits (positive : 0 < denominator) (kept numerator : Nat) :
    numerator < denominator * Nat.pow 2 (excessBits kept numerator denominator) *
      Nat.pow 2 kept := by
  have quotient : numerator / denominator <
      2 ^ excessBits kept numerator denominator * 2 ^ kept := by
    rw [excessBits, ← Nat.pow_add]
    calc numerator / denominator
        < 2 ^ (Nat.log2 (numerator / denominator) + 1) := Nat.lt_log2_self
      _ ≤ 2 ^ (Nat.log2 (numerator / denominator) + 1 - kept + kept) :=
        Nat.pow_le_pow_right Nat.zero_lt_two (by omega)
  rw [Nat.mul_assoc, Nat.mul_comm denominator]
  exact (Nat.div_lt_iff_lt_mul positive).1 quotient

/-- A ratio with excess bits fills all bits that are kept. -/
theorem two_pow_excessBits_le {kept : Nat}
    (excess : excessBits (kept + 1) numerator denominator ≠ 0) :
    denominator * Nat.pow 2 (excessBits (kept + 1) numerator denominator) * Nat.pow 2 kept ≤
      numerator := by
  have quotient : 2 ^ excessBits (kept + 1) numerator denominator * 2 ^ kept ≤
      numerator / denominator := by
    rw [excessBits] at excess ⊢
    have positive : numerator / denominator ≠ 0 := by
      intro zero
      rw [zero, Nat.log2_zero] at excess
      omega
    rw [← Nat.pow_add]
    calc 2 ^ (Nat.log2 (numerator / denominator) + 1 - (kept + 1) + kept)
        = 2 ^ Nat.log2 (numerator / denominator) := congrArg _ (by omega)
      _ ≤ numerator / denominator := Nat.log2_self_le positive
  rw [Nat.mul_assoc, Nat.mul_comm denominator]
  exact Nat.mul_le_of_le_div _ _ _ quotient

/-- A larger ratio has no fewer bits in excess. -/
theorem excessBits_mono (kept denominator : Nat) (grows : numerator ≤ larger) :
    excessBits kept numerator denominator ≤ excessBits kept larger denominator := by
  rw [excessBits, excessBits, Nat.log2_eq_log_two, Nat.log2_eq_log_two]
  have logs : Nat.log 2 (numerator / denominator) ≤ Nat.log 2 (larger / denominator) :=
    Nat.log_mono_right (Nat.div_le_div_right grows)
  omega

end Rounding

namespace Binary32

/-- The magnitude nearest to a ratio follows the order of the numerators. -/
theorem magnitudeOfRatio_mono {numerator larger denominator : Nat} (positive : 0 < denominator)
    (grows : numerator ≤ larger) :
    magnitudeOfRatio numerator denominator ≤ magnitudeOfRatio larger denominator := by
  unfold magnitudeOfRatio
  dsimp only
  apply min_le_min_left
  have excess := excessBits_mono 24 denominator grows
  have scaled (bits : Nat) : 0 < denominator * Nat.pow 2 bits :=
    Nat.mul_pos positive (Nat.two_pow_pos bits)
  rcases Nat.lt_or_eq_of_le excess with lower | same
  · -- The smaller ratio may carry, but only to where the next exponent begins.
    have atMost := roundRatio_le_of_le_mul (scaled _)
      (lt_two_pow_excessBits positive 24 numerator).le
    have atLeast : Nat.pow 2 23 ≤
        roundRatio larger (denominator * Nat.pow 2 (excessBits 24 larger denominator)) :=
      le_roundRatio_of_mul_le (scaled _) (two_pow_excessBits_le (Nat.ne_zero_of_lt lower))
    have steps := Nat.mul_le_mul_right (Nat.pow 2 23) (Nat.succ_le_of_lt lower)
    have double : Nat.pow 2 24 = Nat.pow 2 23 + Nat.pow 2 23 := rfl
    rw [Nat.succ_mul] at steps
    omega
  · rw [← same]
    exact Nat.add_le_add_left (roundRatio_mono _ grows) _

/-- No ratio is rounded past infinity. -/
theorem magnitudeOfRatio_le (numerator denominator : Nat) :
    magnitudeOfRatio numerator denominator ≤ infiniteMagnitude :=
  Nat.min_le_left _ _

theorem magnitudeOfRatio_zero : magnitudeOfRatio 0 1 = 0 := by decide

/-- What is not above in the total order has no larger signed magnitude. -/
theorem signed_le_of_compareTotal {first second : Binary32}
    (ordered : compareTotal first second ≠ .gt) : first.signed ≤ second.signed := by
  have ranks : first.rank ≤ second.rank := Int.isLE_compare.1 (Ordering.isLE_iff_ne_gt.2 ordered)
  unfold rank at ranks
  unfold signed
  split at ranks <;> split at ranks <;> simp [*] <;> omega

/-- The total order tells all bit patterns apart. -/
theorem rank_injective {first second : Binary32} (same : first.rank = second.rank) :
    first = second := by
  obtain ⟨bits⟩ := first
  obtain ⟨others⟩ := second
  have small := bits.toNat_lt
  have smallOthers := others.toNat_lt
  simp only [rank, isNegative, magnitude, ge_iff_le, decide_eq_true_eq] at same
  refine congrArg mk (UInt32.toNat_inj.1 ?_)
  split at same <;> split at same <;> omega

/-- Only equal bit patterns compare equal in the total order. -/
theorem compareTotal_eq_iff {first second : Binary32} :
    compareTotal first second = .eq ↔ first = second := by
  rw [compareTotal, compare_eq_iff_eq]
  exact ⟨rank_injective, congrArg rank⟩

section Signs

variable {number : Binary32}

/-- A number has at most the magnitude of infinity. -/
theorem isNaN_eq_false_iff : number.isNaN = false ↔ number.magnitude ≤ infiniteMagnitude := by
  simp [isNaN]

/-- The signed magnitude of a number lies between those of the infinities. -/
theorem signed_bounds (isNumber : number.isNaN = false) :
    -(infiniteMagnitude : Int) ≤ number.signed ∧ number.signed ≤ infiniteMagnitude := by
  have atMost := isNaN_eq_false_iff.1 isNumber
  unfold signed
  split <;> omega

/-- An infinity has the largest magnitude, with its sign. -/
theorem signed_of_isInfinite (infinite : number.isInfinite) :
    number.signed =
      if number.isNegative then -(infiniteMagnitude : Int) else infiniteMagnitude := by
  have atEnd : number.magnitude = infiniteMagnitude := of_decide_eq_true infinite
  rw [signed, atEnd]

/-- A magnitude up to infinity is stored as it is. -/
theorem magnitude_ofMagnitude (negative : Bool) {magnitude : Nat}
    (atMost : magnitude ≤ infiniteMagnitude) :
    (ofMagnitude negative magnitude).magnitude = magnitude := by
  have small : magnitude ≤ 0x7F800000 := atMost
  rw [ofMagnitude, Binary32.magnitude, UInt32.toNat_ofNat']
  split <;> omega

/-- A sign is stored as it is. -/
theorem isNegative_ofMagnitude (negative : Bool) {magnitude : Nat}
    (atMost : magnitude ≤ infiniteMagnitude) :
    (ofMagnitude negative magnitude).isNegative = negative := by
  have small : magnitude ≤ 0x7F800000 := atMost
  rw [ofMagnitude, isNegative, UInt32.toNat_ofNat']
  cases negative <;> simp <;> omega

/-- A signed magnitude is stored as it is. -/
theorem signed_ofMagnitude (negative : Bool) {magnitude : Nat}
    (atMost : magnitude ≤ infiniteMagnitude) :
    (ofMagnitude negative magnitude).signed =
      if negative then -(magnitude : Int) else magnitude := by
  rw [signed, isNegative_ofMagnitude negative atMost, magnitude_ofMagnitude negative atMost]

end Signs

/-- A finite number in quanta, with its sign. -/
def exact (number : Binary32) : Int :=
  if number.isNegative then -(number.quanta : Int) else number.quanta

/-- The quanta of a number lie between the powers of two around its exponent. -/
theorem quanta_lt (number : Binary32) :
    number.quanta < Nat.pow 2 23 * Nat.pow 2 (number.magnitude / Nat.pow 2 23) := by
  have fraction : number.magnitude % Nat.pow 2 23 < Nat.pow 2 23 :=
    Nat.mod_lt _ (Nat.two_pow_pos _)
  unfold quanta
  dsimp only
  split
  · next least =>
    rw [least]
    omega
  · next normal =>
    obtain ⟨exponent, same⟩ := Nat.exists_eq_succ_of_ne_zero normal
    have double : Nat.pow 2 (exponent + 1) = 2 * Nat.pow 2 exponent := Nat.pow_succ'
    rw [same, Nat.succ_sub_one, double, ← Nat.mul_assoc]
    exact Nat.mul_lt_mul_of_pos_right (by omega) (Nat.two_pow_pos _)

/-- A normal number has at least the quanta of its exponent. -/
theorem le_quanta {number : Binary32} {exponent : Nat}
    (normal : number.magnitude / Nat.pow 2 23 = exponent + 1) :
    Nat.pow 2 23 * Nat.pow 2 exponent ≤ number.quanta := by
  unfold quanta
  dsimp only
  rw [normal, if_neg (Nat.succ_ne_zero exponent), Nat.add_sub_cancel]
  exact Nat.mul_le_mul_right _ (Nat.le_add_right _ _)

/-- Quanta follow the order of the magnitudes. -/
theorem quanta_mono {first second : Binary32} (grows : first.magnitude ≤ second.magnitude) :
    first.quanta ≤ second.quanta := by
  have exponents : first.magnitude / Nat.pow 2 23 ≤ second.magnitude / Nat.pow 2 23 :=
    Nat.div_le_div_right grows
  rcases Nat.lt_or_eq_of_le exponents with lower | same
  · obtain ⟨exponent, normal⟩ := Nat.exists_eq_succ_of_ne_zero (Nat.ne_zero_of_lt lower)
    calc first.quanta
        ≤ Nat.pow 2 23 * Nat.pow 2 (first.magnitude / Nat.pow 2 23) := (quanta_lt first).le
      _ ≤ Nat.pow 2 23 * Nat.pow 2 exponent :=
        Nat.mul_le_mul_left _ (Nat.pow_le_pow_right Nat.zero_lt_two (by omega))
      _ ≤ second.quanta := le_quanta normal
  · have parts := Nat.div_add_mod first.magnitude (Nat.pow 2 23)
    have laterParts := Nat.div_add_mod second.magnitude (Nat.pow 2 23)
    rw [same] at parts
    have fractions : first.magnitude % Nat.pow 2 23 ≤ second.magnitude % Nat.pow 2 23 := by omega
    unfold quanta
    dsimp only
    rw [same]
    split
    · exact fractions
    · exact Nat.mul_le_mul_right _ (Nat.add_le_add_left fractions _)

/-- A zero has no quanta. -/
theorem quanta_eq_zero {number : Binary32} (zero : number.magnitude = 0) : number.quanta = 0 := by
  rw [quanta, zero]
  rfl

/-- Exact values follow the order of the signed magnitudes. -/
theorem exact_mono {first second : Binary32} (below : first.signed ≤ second.signed) :
    first.exact ≤ second.exact := by
  unfold signed at below
  unfold exact
  cases ofFirst : first.isNegative with
  | true =>
      cases ofSecond : second.isNegative with
      | true =>
          simp only [ofFirst, ofSecond, if_true] at below ⊢
          have grows : second.quanta ≤ first.quanta := quanta_mono (by omega)
          omega
      | false =>
          simp only [if_true, Bool.false_eq_true, if_false]
          omega
  | false =>
      cases ofSecond : second.isNegative with
      | true =>
          simp only [ofFirst, ofSecond, if_true, Bool.false_eq_true, if_false] at below ⊢
          have firstZero : first.quanta = 0 := quanta_eq_zero (by omega)
          have secondZero : second.quanta = 0 := quanta_eq_zero (by omega)
          omega
      | false =>
          simp only [ofFirst, ofSecond, Bool.false_eq_true, if_false] at below ⊢
          have grows : first.quanta ≤ second.quanta := quanta_mono (by omega)
          omega

/-- The place among all numbers of the number nearest to a whole number of quanta. -/
def nearest (total : Int) : Int :=
  if total < 0 then -(magnitudeOfRatio total.natAbs 1 : Int) else magnitudeOfRatio total.natAbs 1

/-- Rounding a whole number of quanta follows the order. -/
theorem nearest_mono {total larger : Int} (grows : total ≤ larger) :
    nearest total ≤ nearest larger := by
  unfold nearest
  split
  · split
    · have magnitudes := magnitudeOfRatio_mono Nat.one_pos
        (show larger.natAbs ≤ total.natAbs by omega)
      omega
    · omega
  · rw [if_neg (by omega)]
    have magnitudes := magnitudeOfRatio_mono Nat.one_pos
      (show total.natAbs ≤ larger.natAbs by omega)
    omega

/-- Two finite numbers are added exactly and rounded once, unless the sum is zero. -/
theorem addNumbers_of_finite {first second : Binary32} (finite : first.isInfinite = false)
    (secondFinite : second.isInfinite = false) : addNumbers first second =
      if first.exact + second.exact = 0 then
        ofMagnitude (first.isNegative && second.isNegative) 0
      else ofRatio (first.exact + second.exact < 0) (first.exact + second.exact).natAbs 1 := by
  unfold addNumbers
  rw [finite, secondFinite]
  rfl

/-- The sum of two finite numbers is the exact sum, rounded. -/
theorem signed_addNumbers {first second : Binary32} (finite : first.isInfinite = false)
    (secondFinite : second.isInfinite = false) :
    (addNumbers first second).signed = nearest (first.exact + second.exact) := by
  rw [addNumbers_of_finite finite secondFinite]
  split
  · next zero =>
    rw [zero, signed_ofMagnitude _ (Nat.zero_le _), nearest, Int.natAbs_zero,
      magnitudeOfRatio_zero]
    simp
  · rw [ofRatio, signed_ofMagnitude _ (magnitudeOfRatio_le _ _), nearest]
    simp

/-- Setting bits does not lower a magnitude. -/
theorem magnitude_le_setBits (number : Binary32) (bits : UInt32) :
    number.magnitude ≤ (⟨number.bits ||| bits⟩ : Binary32).magnitude := by
  unfold magnitude
  rw [UInt32.toNat_or, show 0x80000000 = 2 ^ 31 from rfl, Nat.or_mod_two_pow]
  exact Nat.left_le_or

/-- What is not a number is none with more bits set. -/
theorem isNaN_setBits {number : Binary32} (isNaN : number.isNaN) (bits : UInt32) :
    (⟨number.bits ||| bits⟩ : Binary32).isNaN :=
  decide_eq_true (Nat.lt_of_lt_of_le (of_decide_eq_true isNaN) (magnitude_le_setBits number bits))

/-- A sum that is a number is one of numbers. -/
theorem isNaN_of_add {first second : Binary32} (isNumber : (first + second).isNaN = false) :
    first.isNaN = false ∧ second.isNaN = false ∧ first + second = addNumbers first second := by
  change (first.add second).isNaN = false at isNumber
  change _ ∧ _ ∧ first.add second = _
  unfold add at isNumber ⊢
  cases ofFirst : first.isNaN with
  | true =>
      rw [propagated?, ofFirst, if_pos rfl, Option.getD_some,
        isNaN_setBits ofFirst] at isNumber
      cases isNumber
  | false =>
      cases ofSecond : second.isNaN with
      | true =>
          rw [propagated?, ofFirst, ofSecond, if_neg Bool.false_ne_true, if_pos rfl,
            Option.getD_some, isNaN_setBits ofSecond] at isNumber
          cases isNumber
      | false =>
          refine ⟨rfl, rfl, ?_⟩
          rw [propagated?, ofFirst, ofSecond]
          rfl

section Infinite

variable {number shift : Binary32}

/-- An infinity stays as it is under a finite shift. -/
theorem addNumbers_of_isInfinite (infinite : number.isInfinite)
    (finite : shift.isInfinite = false) :
    addNumbers number shift = number := by
  rw [addNumbers, if_pos infinite, finite]
  rfl

/-- An infinite summand decides a sum that is a number. -/
theorem signed_addNumbers_of_isInfinite (infinite : shift.isInfinite)
    (isNumber : (addNumbers number shift).isNaN = false) :
    (addNumbers number shift).signed = shift.signed := by
  unfold addNumbers at isNumber ⊢
  split
  · next numberInfinite =>
    rw [if_pos numberInfinite] at isNumber
    split at isNumber
    · exact absurd isNumber (by decide)
    · next sameSign =>
      rw [if_neg sameSign, signed_of_isInfinite numberInfinite, signed_of_isInfinite infinite]
      simp only [infinite, Bool.true_and, bne_iff_ne, ne_eq, not_not] at sameSign
      rw [sameSign]
  · rfl

/-- The signed magnitude of a finite number lies strictly between those of the infinities. -/
theorem signed_bounds_of_finite (isNumber : number.isNaN = false)
    (finite : number.isInfinite = false) :
    -(infiniteMagnitude : Int) < number.signed ∧ number.signed < infiniteMagnitude := by
  have atMost := isNaN_eq_false_iff.1 isNumber
  have notEnd : number.magnitude ≠ infiniteMagnitude := of_decide_eq_false finite
  unfold signed
  split <;> omega

/-- The signed magnitude of an infinity is the least or the largest. -/
theorem signed_eq_of_isInfinite (infinite : number.isInfinite) :
    number.signed = -(infiniteMagnitude : Int) ∨ number.signed = infiniteMagnitude := by
  rw [signed_of_isInfinite infinite]
  split
  · exact .inl rfl
  · exact .inr rfl

end Infinite

/-- A sum with a fixed summand does not fall when the other one grows. -/
theorem signed_add_mono {first second shift : Binary32} (below : first.signed ≤ second.signed)
    (isNumber : (first + shift).isNaN = false) (secondSum : (second + shift).isNaN = false) :
    (first + shift).signed ≤ (second + shift).signed := by
  have bounds := signed_bounds isNumber
  have secondBounds := signed_bounds secondSum
  obtain ⟨firstNumber, _, sum⟩ := isNaN_of_add isNumber
  obtain ⟨secondNumber, _, secondEq⟩ := isNaN_of_add secondSum
  cases ofShift : shift.isInfinite with
  | true =>
      rw [sum] at isNumber ⊢
      rw [secondEq] at secondSum ⊢
      rw [signed_addNumbers_of_isInfinite ofShift isNumber,
        signed_addNumbers_of_isInfinite ofShift secondSum]
  | false =>
      cases ofFirst : first.isInfinite with
      | true =>
          have unchanged := addNumbers_of_isInfinite ofFirst ofShift
          cases ofSecond : second.isInfinite with
          | true => rwa [sum, secondEq, unchanged, addNumbers_of_isInfinite ofSecond ofShift]
          | false =>
              have finite := signed_bounds_of_finite secondNumber ofSecond
              have ends := signed_eq_of_isInfinite ofFirst
              rw [sum, unchanged]
              omega
      | false =>
          cases ofSecond : second.isInfinite with
          | true =>
              have finite := signed_bounds_of_finite firstNumber ofFirst
              have ends := signed_eq_of_isInfinite ofSecond
              rw [secondEq, addNumbers_of_isInfinite ofSecond ofShift]
              omega
          | false =>
              rw [sum, secondEq, signed_addNumbers ofFirst ofShift,
                signed_addNumbers ofSecond ofShift]
              exact nearest_mono (Int.add_le_add_right (exact_mono below) _)

end Binary32

end Randomizer
