import Randomizer.Text.Number

namespace Randomizer

/-- The digits of a number have its value. -/
theorem digitsValue_toDigits (number : Nat) : digitsValue (Nat.toDigits 10 number) = number := by
  have read := Nat.ofDigitChars_ten_toDigits (n := number)
  rwa [Nat.ofDigitChars_eq_foldl] at read

/-- The digits of a number are read as the number. -/
theorem naturalOf?_toDigits (number : Nat) :
    naturalOf? (Nat.toDigits 10 number) = some number := by
  have digits : (Nat.toDigits 10 number).all Char.isDigit := by
    rw [List.all_eq_true]
    intro char member
    exact Nat.isDigit_of_mem_toDigits (by decide) (by decide) member
  have present : (Nat.toDigits 10 number).isEmpty = false := by
    rw [List.isEmpty_eq_false_iff]
    exact Nat.toDigits_ne_nil
  rw [naturalOf?, present, digits, digitsValue_toDigits]
  rfl

/-- A natural number is spelled by its digits. -/
theorem toList_toString_natural (number : Nat) :
    (toString (number : Int)).toList = Nat.toDigits 10 number := by
  have text : toString (number : Int) = Nat.repr number := rfl
  rw [text, Nat.toList_repr]

/-- A negative number is spelled by a minus and its digits. -/
theorem toList_toString_negative (number : Nat) :
    (toString (-((number + 1 : Nat) : Int))).toList =
      '-' :: Nat.toDigits 10 (number + 1) := by
  have text : toString (-((number + 1 : Nat) : Int)) = "-" ++ Nat.repr (number + 1) := rfl
  rw [text, String.toList_append, Nat.toList_repr]
  rfl

namespace Amount

/-- The text of an amount is read as the amount. -/
theorem ofText?_toString {amount : Int} (inRange : InRange amount) :
    ofText? (toString amount) = some amount := by
  obtain ⟨number, rfl | rfl⟩ := amount.eq_nat_or_neg
  · have digits := naturalOf?_toDigits number
    rw [ofText?, toList_toString_natural]
    split
    · next rest written =>
      have sign : '-' ∈ Nat.toDigits 10 number := by simp [written]
      exact absurd (Nat.isDigit_of_mem_toDigits (by decide) (by decide) sign) (by decide)
    · next rest written =>
      have sign : '+' ∈ Nat.toDigits 10 number := by simp [written]
      exact absurd (Nat.isDigit_of_mem_toDigits (by decide) (by decide) sign) (by decide)
    · rw [digits]
      simp [inRange]
  · cases number with
    | zero => decide
    | succ number =>
        rw [ofText?, toList_toString_negative]
        simpa [naturalOf?_toDigits] using inRange

/-- A character of the text of an amount is a digit or the sign of a negative one. -/
theorem isDigit_of_mem_toString {amount : Int} {char : Char}
    (member : char ∈ (toString amount).toList) : char.isDigit ∨ char = '-' := by
  have digit {number : Nat} (among : char ∈ Nat.toDigits 10 number) : char.isDigit :=
    Nat.isDigit_of_mem_toDigits (by decide) (by decide) among
  obtain ⟨number, rfl | rfl⟩ := amount.eq_nat_or_neg
  · rw [toList_toString_natural] at member
    exact .inl (digit member)
  · cases number with
    | zero =>
        rw [Int.natCast_zero, Int.neg_zero] at member
        exact .inl (digit (toList_toString_natural 0 ▸ member))
    | succ number =>
        rw [toList_toString_negative] at member
        rcases List.mem_cons.1 member with sign | among
        · exact .inr sign
        · exact .inl (digit among)

/-- Every number has a spelling. -/
theorem toString_ne_empty (amount : Int) : toString amount ≠ "" := by
  intro empty
  have chars := congrArg String.toList empty
  obtain ⟨number, rfl | rfl⟩ := amount.eq_nat_or_neg
  · rw [toList_toString_natural] at chars
    exact Nat.toDigits_ne_nil chars
  · cases number with
    | zero => exact absurd empty (by decide)
    | succ number =>
        rw [toList_toString_negative] at chars
        cases chars

end Amount

end Randomizer
