import Mathlib.Order.Compare
import Randomizer.Proofs.PriorityQueue

/-!
The heap of a queue. Entries are ordered by key and arrival, no entry of a heap leaves before the
entry above it, and rising and sinking restore that where a single entry is out of place. So the
entry on top leaves first.
-/

universe u v

namespace Randomizer

namespace PriorityQueue

variable {κ : Type u} {α : Type v} [Ord κ]

namespace Entry

/-- The order of leaving: by key, then by arrival. -/
def order (first second : Entry κ α) : Ordering :=
  compareLex (compareOn key) (compareOn arrival) first second

/-- One entry precedes another just if it comes before it in the order. -/
theorem precedes_iff {first second : Entry κ α} :
    first.precedes second ↔ order first second = .lt := by
  unfold precedes order
  simp only [compareLex, compareOn]
  cases compare first.key second.key <;> simp [Nat.compare_eq_lt]

instance [Std.TransOrd κ] : Std.TransCmp (order : Entry κ α → Entry κ α → Ordering) :=
  inferInstanceAs (Std.TransCmp (compareLex (compareOn key) (compareOn arrival)))

/-- An entry that precedes another is not above it. -/
theorem isLE_of_precedes {first second : Entry κ α} (before : first.precedes second) :
    (order first second).isLE := by
  rw [precedes_iff.1 before]
  rfl

/-- An entry that does not precede another is not below it. -/
theorem isLE_of_not_precedes [Std.TransOrd κ] {first second : Entry κ α}
    (stays : ¬ first.precedes second) : (order second first).isLE := by
  have swapped : order second first = (order first second).swap := Std.OrientedCmp.eq_swap
  rw [precedes_iff] at stays
  rw [swapped]
  cases same : order first second
  · exact absurd same stays
  · rfl
  · rfl

/-- Arrivals decide between equal keys. -/
theorem order_eq_lt {first second : Entry κ α} (before : (order first second).isLE)
    (apart : first.arrival ≠ second.arrival) : order first second = .lt := by
  unfold order at before ⊢
  simp only [compareLex, compareOn] at before ⊢
  cases keys : compare first.key second.key with
  | lt => rfl
  | eq =>
      rw [keys, Ordering.eq_then, Nat.isLE_compare] at before
      rw [Ordering.eq_then, Nat.compare_eq_lt]
      omega
  | gt =>
      rw [keys] at before
      cases before

/-- An entry before another has no larger key, and came earlier where the keys tie. -/
theorem keys_of_order_eq_lt {first second : Entry κ α} (before : order first second = .lt) :
    (compare first.key second.key).isLE ∧
      (compare first.key second.key = .eq → first.arrival < second.arrival) := by
  unfold order at before
  simp only [compareLex, compareOn, Ordering.then_eq_lt, Nat.compare_eq_lt] at before
  rcases before with less | ⟨same, earlier⟩
  · rw [less]
    exact ⟨rfl, nofun⟩
  · rw [same]
    exact ⟨rfl, fun _ => earlier⟩

end Entry

/-- No entry leaves before the one above it. -/
def Heaped (entries : Array (Entry κ α)) : Prop :=
  ∀ index (inside : index < entries.size), 0 < index →
    (Entry.order entries[(index - 1) / 2] entries[index]).isLE

/-- What is below a place is in order with what is above the place. -/
def Around (entries : Array (Entry κ α)) (place : Nat) : Prop :=
  ∀ index (inside : index < entries.size), 0 < index → (index - 1) / 2 = place → 0 < place →
    (Entry.order entries[((index - 1) / 2 - 1) / 2] entries[index]).isLE

/-- Only the entry at a place may leave before the one above it. -/
structure RisesAt (entries : Array (Entry κ α)) (place : Nat) : Prop where
  others : ∀ index (inside : index < entries.size), 0 < index → index ≠ place →
    (Entry.order entries[(index - 1) / 2] entries[index]).isLE
  around : Around entries place

/-- Only the entries below a place may leave before the one at the place. -/
structure SinksAt (entries : Array (Entry κ α)) (place : Nat) : Prop where
  others : ∀ index (inside : index < entries.size), 0 < index → (index - 1) / 2 ≠ place →
    (Entry.order entries[(index - 1) / 2] entries[index]).isLE
  around : Around entries place

variable {entries : Array (Entry κ α)}

/-- The least child is a child. -/
theorem parent_leastChild {place : Nat} (left : 2 * place + 1 < entries.size) :
    (leastChild entries place left - 1) / 2 = place := by
  unfold leastChild
  split
  · split <;> omega
  · omega

/-- The entry goes down to the least entry below it. -/
theorem SinksAt.swap {place child : Nat} (sinks : SinksAt entries place)
    (below : child < entries.size) (here : place < entries.size) (deeper : place < child)
    (isChild : (child - 1) / 2 = place) (before : entries[child].precedes entries[place])
    (least : ∀ index (inside : index < entries.size), 0 < index → (index - 1) / 2 = place →
      (Entry.order entries[child] entries[index]).isLE) :
    SinksAt (entries.swap child place below here) child := by
  constructor
  · intro index bound positive elsewhere
    rw [Array.size_swap] at bound
    by_cases atPlace : index = place
    · subst atPlace
      rw [Array.getElem_swap_right, Array.getElem_swap_of_ne (by omega) (by omega)]
      have bridged := sinks.around child below (by omega) isChild positive
      simp only [isChild] at bridged
      exact bridged
    by_cases sibling : (index - 1) / 2 = place
    · simp only [sibling, Array.getElem_swap_right]
      by_cases atChild : index = child
      · subst atChild
        rw [Array.getElem_swap_left]
        exact Entry.isLE_of_precedes before
      · rw [Array.getElem_swap_of_ne atChild atPlace]
        exact least index bound positive sibling
    · have atChild : index ≠ child := by
        rintro rfl
        exact sibling isChild
      rw [Array.getElem_swap_of_ne elsewhere sibling, Array.getElem_swap_of_ne atChild atPlace]
      exact sinks.others index bound positive sibling
  · intro index bound positive grandchild _
    rw [Array.size_swap] at bound
    simp only [grandchild, isChild, Array.getElem_swap_right]
    rw [Array.getElem_swap_of_ne (by omega) (by omega)]
    have inOrder := sinks.others index bound positive (by omega)
    simp only [grandchild] at inOrder
    exact inOrder

variable [Std.TransOrd κ]

/-- The entry on top leaves first. -/
theorem Heaped.isLE_head (heaped : Heaped entries) (index : Nat) (inside : index < entries.size) :
    (Entry.order entries[0] entries[index]).isLE := by
  induction index using Nat.strongRecOn with
  | ind index ih =>
      by_cases top : index = 0
      · subst top
        exact Std.ReflCmp.isLE_rfl
      · have above := ih ((index - 1) / 2) (by omega) (by omega)
        exact Std.TransCmp.isLE_trans above (heaped index inside (by omega))

/-- The entry goes up one place. -/
theorem RisesAt.swap {place : Nat} (rises : RisesAt entries place) (below : 0 < place)
    (inside : place < entries.size) (above : (place - 1) / 2 < entries.size)
    (before : entries[place].precedes entries[(place - 1) / 2]) :
    RisesAt (entries.swap place ((place - 1) / 2) inside above) ((place - 1) / 2) := by
  have lower := Entry.isLE_of_precedes before
  constructor
  · intro index bound positive elsewhere
    rw [Array.size_swap] at bound
    by_cases here : index = place
    · subst here
      rw [Array.getElem_swap_left, Array.getElem_swap_right]
      exact lower
    rw [Array.getElem_swap_of_ne here elsewhere]
    by_cases child : (index - 1) / 2 = place
    · simp only [child, Array.getElem_swap_left]
      have bridged := rises.around index bound positive child below
      simp only [child] at bridged
      exact bridged
    have inOrder := rises.others index bound positive here
    by_cases sibling : (index - 1) / 2 = (place - 1) / 2
    · simp only [sibling, Array.getElem_swap_right] at inOrder ⊢
      exact Std.TransCmp.isLE_trans lower inOrder
    · rw [Array.getElem_swap_of_ne child sibling]
      exact inOrder
  · intro index bound positive child higher
    rw [Array.size_swap] at bound
    have aboveParent := rises.others ((place - 1) / 2) above higher (by omega)
    simp only [child]
    rw [Array.getElem_swap_of_ne (by omega) (by omega)]
    by_cases here : index = place
    · subst here
      rw [Array.getElem_swap_left]
      exact aboveParent
    · rw [Array.getElem_swap_of_ne here (by omega)]
      have inOrder := rises.others index bound positive here
      simp only [child] at inOrder
      exact Std.TransCmp.isLE_trans aboveParent inOrder

/-- An entry that rises comes to its place. -/
theorem RisesAt.heaped {place : Nat} (rises : RisesAt entries place) :
    Heaped (siftUp entries place) := by
  induction entries, place using siftUp.induct with
  | case1 entries place inside parent above precedes ih =>
      rw [siftUp, dif_pos inside, if_pos precedes]
      exact ih (rises.swap inside.1 inside.2 above precedes)
  | case2 entries place inside parent above stays =>
      rw [siftUp, dif_pos inside, if_neg stays]
      intro index bound positive
      by_cases here : index = place
      · subst here
        exact Entry.isLE_of_not_precedes stays
      · exact rises.others index bound positive here
  | case3 entries place outside =>
      rw [siftUp, dif_neg outside]
      intro index bound positive
      exact rises.others index bound positive (by omega)

/-- The least child does not leave after any child. -/
theorem isLE_leastChild {place : Nat} (left : 2 * place + 1 < entries.size)
    (bound : leastChild entries place left < entries.size) (index : Nat)
    (inside : index < entries.size) (positive : 0 < index) (child : (index - 1) / 2 = place) :
    (Entry.order entries[leastChild entries place left] entries[index]).isLE := by
  have sides : index = 2 * place + 1 ∨ index = 2 * place + 2 := by omega
  by_cases right : 2 * place + 2 < entries.size
  · by_cases before : entries[2 * place + 2].precedes entries[2 * place + 1]
    · have least : leastChild entries place left = 2 * place + 2 := by
        rw [leastChild, dif_pos right, if_pos before]
      simp only [least]
      rcases sides with rfl | rfl
      · exact Entry.isLE_of_precedes before
      · exact Std.ReflCmp.isLE_rfl
    · have least : leastChild entries place left = 2 * place + 1 := by
        rw [leastChild, dif_pos right, if_neg before]
      simp only [least]
      rcases sides with rfl | rfl
      · exact Std.ReflCmp.isLE_rfl
      · exact Entry.isLE_of_not_precedes before
  · have least : leastChild entries place left = 2 * place + 1 := by
      rw [leastChild, dif_neg right]
    obtain rfl : index = 2 * place + 1 := by omega
    simp only [least]
    exact Std.ReflCmp.isLE_rfl

/-- An entry that sinks comes to its place. -/
theorem SinksAt.heaped {place : Nat} (sinks : SinksAt entries place) :
    Heaped (siftDown entries place) := by
  induction entries, place using siftDown.induct with
  | case1 entries place left here child below precedes ih =>
      rw [siftDown, dif_pos left, if_pos precedes]
      refine ih (sinks.swap below here (leastChild_bounds entries place left).1
        (parent_leastChild left) precedes ?_)
      exact isLE_leastChild left below
  | case2 entries place left here child below stays =>
      rw [siftDown, dif_pos left, if_neg stays]
      intro index bound positive
      by_cases isChild : (index - 1) / 2 = place
      · have least := isLE_leastChild left below index bound positive isChild
        simp only [isChild]
        exact Std.TransCmp.isLE_trans (Entry.isLE_of_not_precedes stays) least
      · exact sinks.others index bound positive isChild
  | case3 entries place leaf =>
      rw [siftDown, dif_neg leaf]
      intro index bound positive
      exact sinks.others index bound positive (by omega)

/-- A new entry at the end rises to its place. -/
theorem Heaped.push (heaped : Heaped entries) (entry : Entry κ α) :
    Heaped (siftUp (entries.push entry) entries.size) := by
  refine RisesAt.heaped ⟨fun index bound positive elsewhere => ?_, fun index bound _ child => ?_⟩
  · rw [Array.size_push] at bound
    have inside : index < entries.size := by omega
    rw [Array.getElem_push_lt inside, Array.getElem_push_lt (by omega)]
    exact heaped index inside positive
  · rw [Array.size_push] at bound
    omega

/-- The last entry goes to the top, in the place of the one that leaves, and sinks. -/
theorem Heaped.pop (heaped : Heaped entries) (filled : 0 < entries.size)
    (inside : entries.size - 1 < entries.size) :
    Heaped (siftDown (entries.swap 0 (entries.size - 1) filled inside).pop 0) := by
  refine SinksAt.heaped ⟨fun index bound positive elsewhere => ?_, fun _ _ _ _ below => ?_⟩
  · rw [Array.size_pop, Array.size_swap] at bound
    rw [Array.getElem_pop, Array.getElem_pop, Array.getElem_swap_of_ne (by omega) (by omega),
      Array.getElem_swap_of_ne (by omega) (by omega)]
    exact heaped index (by omega) positive
  · cases below

/-- An entry in the place of the one on top sinks. -/
theorem Heaped.set (heaped : Heaped entries) (filled : 0 < entries.size) (entry : Entry κ α) :
    Heaped (siftDown (entries.set 0 entry filled) 0) := by
  refine SinksAt.heaped ⟨fun index bound positive elsewhere => ?_, fun _ _ _ _ below => ?_⟩
  · rw [Array.size_set] at bound
    rw [Array.getElem_set_ne _ _ (by omega), Array.getElem_set_ne _ _ (by omega)]
    exact heaped index bound positive
  · cases below

end PriorityQueue

end Randomizer
