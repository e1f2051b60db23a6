/-!
Counting the elements of a list that pass a test.
-/

universe u

namespace Randomizer

/-- A test that passes whenever another does counts no more, and less if it turns down a member
that the other lets pass. -/
theorem countP_lt_countP {α : Type u} {list : List α} {narrow wide : α → Bool}
    (implies : ∀ element ∈ list, narrow element → wide element) {apart : α}
    (member : apart ∈ list) (out : narrow apart = false) (inside : wide apart) :
    list.countP narrow < list.countP wide := by
  induction list with
  | nil => cases member
  | cons first rest ih =>
      have restImplies : ∀ element ∈ rest, narrow element → wide element :=
        fun element later => implies element (List.mem_cons_of_mem _ later)
      have most := List.countP_mono_left restImplies
      rw [List.countP_cons, List.countP_cons]
      rcases List.mem_cons.1 member with rfl | later
      · rw [out, inside]
        simp only [Bool.false_eq_true, if_false, if_true]
        omega
      · have smaller := ih restImplies later
        have atFirst := implies first List.mem_cons_self
        cases narrowFirst : narrow first
        · simp only [Bool.false_eq_true, if_false]
          omega
        · rw [atFirst narrowFirst]
          simp only [if_true]
          omega

end Randomizer
