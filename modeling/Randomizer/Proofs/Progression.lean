import Randomizer.Progression

namespace Randomizer

namespace Progression

/-- No term has less in the upper progression. -/
instance : LE Progression := ⟨fun lower upper => ∀ term, lower.read term ≤ upper.read term⟩

/-- Every value is an amount that can be stored. -/
def InRange (progression : Progression) : Prop := ∀ term, Amount.InRange (progression.read term)

/-- A test that holds at every progression above one at which it holds. -/
def Persists (test : Reading → Bool) : Prop :=
  ∀ lower upper : Progression, lower.InRange → upper.InRange → lower ≤ upper →
    test lower.read → test upper.read

variable {first second third progression next : Progression}

theorem le_refl (progression : Progression) : progression ≤ progression :=
  fun _ => Int.le_refl _

theorem le_trans (left : first ≤ second) (right : second ≤ third) : first ≤ third :=
  fun term => Int.le_trans (left term) (right term)

/-- Progression stays in range when a term is set to an amount in range. -/
theorem InRange.set (inRange : progression.InRange) (term : TermId) {amount : Int}
    (stored : Amount.InRange amount) : (progression.set term amount).InRange := by
  intro other
  rw [read_set]
  split
  · exact stored
  · exact inRange other

/-- Progressions with the same storage differ only in what they read. -/
theorem eq_of_read (size : first.values.size = second.values.size)
    (read : first.read = second.read) : first = second := by
  have values : first.values = second.values := by
    apply Array.ext size
    intro index inFirst inSecond
    have same := congrFun read ⟨index⟩
    simpa [Progression.read, inFirst, inSecond] using same
  cases first
  cases second
  cases values
  rfl

/-- Progression with all amounts in range is in range. -/
theorem inRange_of_values {values : Array Int}
    (each : ∀ amount ∈ values, Amount.InRange amount) : InRange ⟨values⟩ := by
  intro term
  simp only [read, Array.getD_eq_getD_getElem?]
  cases found : values[term.index]? with
  | none => exact (by decide : Amount.InRange 0)
  | some amount => exact each amount (Array.mem_of_getElem? found)

/-- Setting a term makes room for it and no more. -/
theorem size_set (progression : Progression) (term : TermId) (amount : Int) :
    (progression.set term amount).values.size = max progression.values.size (term.index + 1) := by
  simp only [set, extend, Array.size_setIfInBounds, Array.size_append, Array.size_replicate]
  omega

/-- Nothing is held at the start. -/
theorem holds_zeros (count : Nat) (term : TermId) :
    (zeros count).holds term = false := by
  have nothing : (zeros count).read term = 0 := by
    simp only [read, zeros, Array.getD_eq_getD_getElem?,
      Array.getElem?_replicate]
    split <;> rfl
  rw [holds, nothing]
  rfl

/-- An effect succeeds just if the sum is in range, and sets its term to the sum. -/
theorem apply_eq_ok_iff {effect : TermAmount} :
    apply effect progression = .ok () next ↔
      Amount.InRange (progression.read effect.term + effect.amount) ∧
        next = progression.set effect.term (progression.read effect.term + effect.amount) := by
  unfold apply increase
  dsimp only
  split
  · simp_all [eq_comm]
  · simp_all

end Progression

end Randomizer
