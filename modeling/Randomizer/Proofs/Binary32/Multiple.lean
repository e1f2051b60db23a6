import Randomizer.Proofs.Binary32

namespace Randomizer

/-- A full number of bits keeps its place when zeros follow. -/
theorem excessBits_mul_two_pow {kept significand : Nat} (lower : Nat.pow 2 kept ≤ significand)
    (upper : significand < Nat.pow 2 (kept + 1)) (shift : Nat) :
    excessBits (kept + 1) (significand * Nat.pow 2 shift) 1 = shift := by
  have logarithm : (significand * 2 ^ shift).log2 = kept + shift := by
    have positive : significand * 2 ^ shift ≠ 0 :=
      Nat.mul_ne_zero (Nat.ne_zero_of_lt (Nat.lt_of_lt_of_le (Nat.two_pow_pos kept) lower))
        (Nat.two_pow_pos shift).ne'
    rw [Nat.log2_eq_iff positive, Nat.add_right_comm, Nat.pow_add, Nat.pow_add]
    exact ⟨Nat.mul_le_mul_right _ lower, Nat.mul_lt_mul_of_pos_right upper (Nat.two_pow_pos shift)⟩
  change Nat.log2 (significand * 2 ^ shift / 1) + 1 - (kept + 1) = shift
  rw [Nat.div_one, logarithm]
  omega

namespace Binary32

/-- A number that is not infinite. -/
def IsFinite (number : Binary32) : Prop := number.magnitude < infiniteMagnitude

instance : DecidablePred IsFinite :=
  fun number => inferInstanceAs (Decidable (number.magnitude < infiniteMagnitude))

variable {number : Binary32}

/-- A finite number is a number. -/
theorem IsFinite.isNaN (finite : number.IsFinite) : number.isNaN = false :=
  isNaN_eq_false_iff.2 finite.le

/-- A finite number is no infinity. -/
theorem IsFinite.isInfinite (finite : number.IsFinite) : number.isInfinite = false :=
  decide_eq_false finite.ne

/-- A finite number in quanta is rounded to itself. -/
theorem magnitudeOfRatio_quanta (finite : number.IsFinite) :
    magnitudeOfRatio number.quanta 1 = number.magnitude := by
  have bounded : number.magnitude < infiniteMagnitude := finite
  have parts := Nat.div_add_mod number.magnitude (Nat.pow 2 23)
  have fraction : number.magnitude % Nat.pow 2 23 < Nat.pow 2 23 :=
    Nat.mod_lt _ (Nat.two_pow_pos _)
  have whole (shift significand : Nat) :
      roundRatio (significand * Nat.pow 2 shift) (1 * Nat.pow 2 shift) = significand := by
    rw [Nat.one_mul, Nat.mul_comm]
    exact roundRatio_mul (Nat.two_pow_pos shift) significand
  unfold magnitudeOfRatio quanta
  dsimp only
  split
  · next least =>
    have noExcess : excessBits 24 (number.magnitude % Nat.pow 2 23) 1 = 0 := by
      have below : Nat.log2 (number.magnitude % Nat.pow 2 23) < 24 := by
        rcases Nat.eq_zero_or_pos (number.magnitude % Nat.pow 2 23) with zero | positive
        · rw [zero]
          decide
        · refine (Nat.log2_lt positive.ne').2 (Nat.lt_trans fraction ?_)
          decide
      rw [excessBits, Nat.div_one]
      omega
    have unchanged := whole 0 (number.magnitude % Nat.pow 2 23)
    have one : Nat.pow 2 0 = 1 := rfl
    rw [one, Nat.mul_one] at unchanged
    rw [noExcess, one, unchanged]
    rw [least] at parts
    omega
  · next normal =>
    have double : Nat.pow 2 (23 + 1) = Nat.pow 2 23 + Nat.pow 2 23 := rfl
    rw [excessBits_mul_two_pow (Nat.le_add_right _ _) (by omega), whole]
    obtain ⟨exponent, same⟩ := Nat.exists_eq_succ_of_ne_zero normal
    rw [same, Nat.mul_succ, Nat.mul_comm] at parts
    rw [same, Nat.succ_sub_one]
    omega

/-- A finite number is the nearest to its own value. -/
theorem nearest_exact (finite : number.IsFinite) :
    nearest number.exact = number.signed := by
  have rounded := magnitudeOfRatio_quanta finite
  unfold nearest exact signed
  cases number.isNegative with
  | true =>
      simp only [if_true, Int.natAbs_neg, Int.natAbs_natCast, rounded]
      split
      · rfl
      · next notBelow =>
        have zero : number.quanta = 0 := by omega
        rw [zero, magnitudeOfRatio_zero] at rounded
        omega
  | false =>
      simp only [Bool.false_eq_true, if_false, Int.natAbs_natCast, rounded]
      rw [if_neg (by omega)]

/-- A magnitude up to infinity is that of a number. -/
theorem isNaN_ofMagnitude (negative : Bool) {magnitude : Nat}
    (atMost : magnitude ≤ infiniteMagnitude) : (ofMagnitude negative magnitude).isNaN = false := by
  rw [isNaN_eq_false_iff, magnitude_ofMagnitude negative atMost]
  exact atMost

section Sums

variable {number shift : Binary32} (finite : number.IsFinite) (shiftNumber : shift.isNaN = false)
include finite shiftNumber

/-- A finite number and a number that is perhaps infinite have a sum. -/
theorem add_of_finite : number + shift = addNumbers number shift ∧
    (number + shift).isNaN = false := by
  have sum : number + shift = addNumbers number shift := by
    change (propagated? number shift).getD _ = _
    rw [propagated?, finite.isNaN, shiftNumber]
    rfl
  refine ⟨sum, ?_⟩
  rw [sum]
  cases ofShift : shift.isInfinite with
  | true =>
      rw [addNumbers, finite.isInfinite, ofShift]
      exact shiftNumber
  | false =>
      rw [addNumbers_of_finite finite.isInfinite ofShift]
      split
      · exact isNaN_ofMagnitude _ (Nat.zero_le _)
      · exact isNaN_ofMagnitude _ (magnitudeOfRatio_le _ _)

/-- A finite number and a shift add up to the shift if it is infinite, or else to the rounded sum.
-/
theorem signed_add_of_finite : (number + shift).signed =
    if shift.isInfinite then shift.signed else nearest (number.exact + shift.exact) := by
  rw [(add_of_finite finite shiftNumber).1]
  split
  · next infinite =>
    rw [addNumbers, finite.isInfinite, infinite]
    rfl
  · next shiftFinite => exact signed_addNumbers finite.isInfinite (Bool.eq_false_iff.2 shiftFinite)

/-- A sum does not fall when the second summand grows. -/
theorem signed_add_mono_right {larger : Binary32} (largerNumber : larger.isNaN = false)
    (below : shift.signed ≤ larger.signed) :
    (number + shift).signed ≤ (number + larger).signed := by
  have bounds := signed_bounds (add_of_finite finite shiftNumber).2
  have largerBounds := signed_bounds (add_of_finite finite largerNumber).2
  rw [signed_add_of_finite finite shiftNumber] at bounds ⊢
  rw [signed_add_of_finite finite largerNumber] at largerBounds ⊢
  split
  · next infinite =>
    split
    · exact below
    · next largerFinite =>
      have ends := signed_eq_of_isInfinite infinite
      have inside := signed_bounds_of_finite largerNumber (Bool.eq_false_iff.2 largerFinite)
      rw [if_neg largerFinite] at largerBounds
      omega
  · next shiftFinite =>
    rw [if_neg shiftFinite] at bounds
    split
    · next infinite =>
      have ends := signed_eq_of_isInfinite infinite
      have inside := signed_bounds_of_finite shiftNumber (Bool.eq_false_iff.2 shiftFinite)
      omega
    · exact nearest_mono (Int.add_le_add_left (exact_mono below) _)

/-- A summand that is not negative lowers nothing. -/
theorem signed_le_add (nonneg : 0 ≤ shift.signed) : number.signed ≤ (number + shift).signed := by
  have same : (number + zero).signed = number.signed := by
    have zeroExact : zero.exact = 0 := by decide
    rw [signed_add_of_finite finite (by decide), if_neg (by decide), zeroExact,
      Int.add_zero, nearest_exact finite]
  rw [← same]
  exact signed_add_mono_right finite (by decide) shiftNumber nonneg

end Sums

section Multiples

/-- A natural number is the nearest magnitude to as many units. -/
theorem magnitude_ofNat (number : Nat) :
    (ofNat number).magnitude = magnitudeOfRatio (number * unit) 1 :=
  magnitude_ofMagnitude false (magnitudeOfRatio_le _ _)

/-- Natural numbers follow the order of their magnitudes. -/
theorem magnitude_ofNat_mono {number larger : Nat} (grows : number ≤ larger) :
    (ofNat number).magnitude ≤ (ofNat larger).magnitude := by
  rw [magnitude_ofNat, magnitude_ofNat]
  exact magnitudeOfRatio_mono Nat.one_pos (Nat.mul_le_mul_right unit grows)

/-- A count that fits in a machine word is finite as a number, and zero only if it is zero. -/
theorem ofNat_bounds {number : Nat} (positive : 0 < number) (small : number ≤ Nat.pow 2 64) :
    0 < (ofNat number).magnitude ∧ (ofNat number).IsFinite := by
  have least : 0 < (ofNat 1).magnitude := by decide +kernel
  have greatest : (ofNat (Nat.pow 2 64)).IsFinite := by decide +kernel
  exact ⟨Nat.lt_of_lt_of_le least (magnitude_ofNat_mono positive),
    Nat.lt_of_le_of_lt (magnitude_ofNat_mono small) greatest⟩

variable {factor : Binary32} (isNumber : factor.isNaN = false) {count : Nat}

include isNumber in
/-- A factor times a count is infinite if the factor is, or else the rounded product. -/
theorem mul_ofNat (positive : 0 < count) (small : count ≤ Nat.pow 2 64) : factor * ofNat count =
    if factor.isInfinite then infinity factor.isNegative
    else ofRatio factor.isNegative (factor.quanta * (ofNat count).quanta) unit := by
  obtain ⟨notZero, finite⟩ := ofNat_bounds positive small
  have countNotZero : (ofNat count).isZero = false := decide_eq_false notZero.ne'
  have countPositive : (ofNat count).isNegative = false :=
    isNegative_ofMagnitude false (magnitudeOfRatio_le _ _)
  change (propagated? factor (ofNat count)).getD _ = _
  rw [propagated?, isNumber, finite.isNaN]
  simp only [Bool.false_eq_true, if_false, Option.getD_none, finite.isInfinite, countNotZero,
    countPositive, Bool.or_false, Bool.bne_false]
  cases infinite : factor.isInfinite with
  | false => rfl
  | true =>
      have notZero : factor.isZero = false := by
        have atEnd : factor.magnitude = infiniteMagnitude := of_decide_eq_true infinite
        rw [isZero, atEnd]
        rfl
      simp only [notZero, Bool.false_eq_true, if_false, if_true]

include isNumber in
/-- A factor times a positive count is a number. -/
theorem isNaN_mul_ofNat (positive : 0 < count) (small : count ≤ Nat.pow 2 64) :
    (factor * ofNat count).isNaN = false := by
  rw [mul_ofNat isNumber positive small]
  split
  · exact isNaN_ofMagnitude _ (Nat.le_refl _)
  · exact isNaN_ofMagnitude _ (magnitudeOfRatio_le _ _)

variable (nonneg : 0 ≤ factor.signed)
include nonneg

/-- A factor that is not negative has no sign or no magnitude. -/
theorem isNegative_or_zero : factor.isNegative = false ∨ factor.magnitude = 0 := by
  cases negative : factor.isNegative with
  | false => exact .inl rfl
  | true =>
      rw [signed, negative, if_pos rfl] at nonneg
      exact .inr (by omega)

include isNumber

/-- The multiples of a factor that is not negative are none either. -/
theorem signed_mul_ofNat (positive : 0 < count) (small : count ≤ Nat.pow 2 64) :
    (factor * ofNat count).signed =
      if factor.isInfinite then (infiniteMagnitude : Int)
      else magnitudeOfRatio (factor.quanta * (ofNat count).quanta) unit := by
  rw [mul_ofNat isNumber positive small]
  split
  · next infinite =>
    have atEnd : factor.magnitude = infiniteMagnitude := of_decide_eq_true infinite
    rcases isNegative_or_zero nonneg with notNegative | zero
    · rw [notNegative, infinity, signed_ofMagnitude _ (Nat.le_refl _)]
      rfl
    · rw [zero] at atEnd
      cases atEnd
  · rw [ofRatio, signed_ofMagnitude _ (magnitudeOfRatio_le _ _)]
    rcases isNegative_or_zero nonneg with notNegative | zero
    · rw [notNegative]
      rfl
    · have nothing : magnitudeOfRatio 0 unit = 0 := by decide +kernel
      rw [quanta_eq_zero zero, Nat.zero_mul, nothing]
      split <;> rfl

/-- A factor that is not negative has no negative multiple. -/
theorem signed_mul_ofNat_nonneg (positive : 0 < count) (small : count ≤ Nat.pow 2 64) :
    0 ≤ (factor * ofNat count).signed := by
  rw [signed_mul_ofNat isNumber nonneg positive small]
  split <;> exact Int.natCast_nonneg _

/-- Multiples follow the order of the counts. -/
theorem signed_mul_ofNat_mono {larger : Nat} (positive : 0 < count) (grows : count ≤ larger)
    (small : larger ≤ Nat.pow 2 64) :
    (factor * ofNat count).signed ≤ (factor * ofNat larger).signed := by
  rw [signed_mul_ofNat isNumber nonneg positive (grows.trans small),
    signed_mul_ofNat isNumber nonneg (Nat.lt_of_lt_of_le positive grows) small]
  split
  · exact Int.le_refl _
  · refine Int.ofNat_le.2 (magnitudeOfRatio_mono (Nat.two_pow_pos 149) ?_)
    exact Nat.mul_le_mul_left _ (quanta_mono (magnitude_ofNat_mono grows))

end Multiples

end Binary32

end Randomizer
