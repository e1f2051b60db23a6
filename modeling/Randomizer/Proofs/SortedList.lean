import Mathlib.Data.List.Pairwise
import Mathlib.Data.Nat.Find
import Mathlib.Order.Compare
import Randomizer.SortedList

/-!
Sorted lists under any sequence of changes. A list stays in ascending order, so the ranks that a
binary search finds are the numbers of elements before a probe, and a search among the elements that
compare equal misses none. Elements that compare equal stay in the order in which they came.
-/

universe u v

namespace Randomizer

namespace SortedList

variable {α : Type u} {order : α → α → Ordering}

/-- A sorted list holds what it was made of. -/
theorem items_ofList_perm (list : List α) : (ofList list : SortedList α order).items.Perm list :=
  List.mergeSort_perm list _

/-- Only an empty list has no least element. -/
theorem items_eq_nil_of_min? {list : SortedList α order} (none : list.min? = none) :
    list.items = [] :=
  List.head?_eq_none_iff.1 none

/-- The least element comes before all others. -/
theorem items_of_min? {list : SortedList α order} {head : α} (first : list.min? = some head) :
    list.items = head :: (list.eraseIndex 0).items := by
  obtain ⟨rest, items⟩ := List.head?_eq_some_iff.1 first
  rw [SortedList.eraseIndex, items]
  rfl

/-- No more elements are counted than there are. -/
theorem countUpTo_le_size (list : SortedList α order) (probe : α) :
    list.countUpTo probe ≤ list.size :=
  (List.takeWhile_sublist _).length_le

/-- No element compares above a later one. -/
def Ascending (list : SortedList α order) : Prop :=
  list.items.Pairwise fun first second => order first second ≠ .gt

/-- A list stays in order without one of its elements. -/
theorem Ascending.eraseIndex {list : SortedList α order} (ascending : list.Ascending)
    (index : Nat) : (list.eraseIndex index).Ascending :=
  ascending.sublist (List.eraseIdx_sublist _ _)

section Partition

variable {items : List α} {holds : α → Bool}
  (sorted : items.Pairwise fun first second => holds second → holds first)
include sorted

/-- A property that passes from an element to all before it holds up to some index. -/
theorem takeWhile_eq_filter : items.takeWhile holds = items.filter holds := by
  induction items with
  | nil => rfl
  | cons first rest ih =>
      obtain ⟨later, rest⟩ := List.pairwise_cons.1 sorted
      by_cases here : holds first
      · rw [List.takeWhile_cons_of_pos here, List.filter_cons_of_pos here, ih rest]
      · have none : ∀ item ∈ first :: _, ¬ holds item :=
          List.forall_mem_cons.2 ⟨here, fun item member below => here (later item member below)⟩
        rw [List.takeWhile_cons_of_neg here, List.filter_eq_nil_iff.2 none]

/-- Where all that pass come first, nothing after them passes. -/
theorem not_of_mem_dropWhile {item : α} (member : item ∈ items.dropWhile holds) :
    ¬ holds item := by
  induction items with
  | nil => cases member
  | cons first rest ih =>
      obtain ⟨later, rest⟩ := List.pairwise_cons.1 sorted
      by_cases here : holds first
      · rw [List.dropWhile_cons_of_pos here] at member
        exact ih rest member
      · rw [List.dropWhile_cons_of_neg here] at member
        rcases List.mem_cons.1 member with rfl | among
        · exact here
        · exact fun below => here (later item among below)

/-- The index is where the property ends. -/
theorem lt_length_takeWhile_iff {index : Nat} {item : α} (found : items[index]? = some item) :
    index < (items.takeWhile holds).length ↔ holds item := by
  have split : items.takeWhile holds ++ items.dropWhile holds = items :=
    List.takeWhile_append_dropWhile
  rw [← split] at found
  constructor
  · intro below
    rw [List.getElem?_append_left below] at found
    exact List.all_eq_true.1 List.all_takeWhile item (List.mem_of_getElem? found)
  · intro here
    by_contra above
    rw [List.getElem?_append_right (Nat.not_lt.1 above)] at found
    exact not_of_mem_dropWhile sorted (List.mem_of_getElem? found) here

end Partition

/-- A binary search for where a property ends, between two indices. -/
def bisect (holds : α → Bool) (items : List α) (low high : Nat) : Nat :=
  if low < high then
    let middle := (low + high) / 2
    if items[middle]?.any holds then bisect holds items (middle + 1) high
    else bisect holds items low middle
  else low
termination_by high - low
decreasing_by all_goals omega

/-- On a list in order the search finds the index that a scan from the front finds. -/
theorem bisect_eq {holds : α → Bool} {items : List α}
    (sorted : items.Pairwise fun first second => holds second → holds first) {low high : Nat}
    (above : low ≤ (items.takeWhile holds).length)
    (below : (items.takeWhile holds).length ≤ high) (inside : high ≤ items.length) :
    bisect holds items low high = (items.takeWhile holds).length := by
  fun_induction bisect holds items low high with
  | case1 low high apart middle here ih =>
      obtain ⟨item, found, holding⟩ := (Option.any_eq_true _ _).1 here
      have before := (lt_length_takeWhile_iff sorted found).2 holding
      exact ih before below inside
  | case2 low high apart middle stays ih =>
      have within : middle < items.length := by omega
      have found := List.getElem?_eq_getElem within
      have after : (items.takeWhile holds).length ≤ middle := by
        by_contra before
        have holding := (lt_length_takeWhile_iff sorted found).1 (Nat.lt_of_not_ge before)
        exact stays (by rw [found, Option.any_some, holding])
      exact ih above after (by omega)
  | case3 low high closed => omega

section Transitive

variable [Std.TransCmp order]

/-- What is not above is so over two steps. -/
theorem ne_gt_trans {first second third : α} (below : order first second ≠ .gt)
    (next : order second third ≠ .gt) : order first third ≠ .gt :=
  Ordering.isLE_iff_ne_gt.1 (Std.TransCmp.isLE_trans (Ordering.isLE_iff_ne_gt.2 below)
    (Ordering.isLE_iff_ne_gt.2 next))

/-- The test for the order is transitive. -/
theorem bne_gt_trans (first second third : α) (below : order first second != .gt)
    (next : order second third != .gt) : order first third != .gt :=
  bne_iff_ne.2 (ne_gt_trans (bne_iff_ne.1 below) (bne_iff_ne.1 next))

/-- The test for the order is total. -/
theorem bne_gt_total (first second : α) :
    order first second != .gt || order second first != .gt := by
  have swapped : order second first = (order first second).swap := Std.OrientedCmp.eq_swap
  rw [swapped]
  cases order first second <;> rfl

/-- A list is sorted into ascending order. -/
theorem ascending_ofList (items : List α) : (ofList items : SortedList α order).Ascending := by
  have sorted : (ofList items : SortedList α order).items.Pairwise fun first second =>
      order first second != .gt := List.pairwise_mergeSort bne_gt_trans bne_gt_total items
  exact sorted.imp fun below => bne_iff_ne.1 below

/-- Where no two elements compare equal, the order in which they came does not count. -/
theorem ofList_eq_of_perm {items others : List α} (perm : items.Perm others)
    (apart : items.Pairwise fun first second => order first second ≠ .eq) :
    (ofList items : SortedList α order) = ofList others := by
  have sorted : (ofList items : SortedList α order).Ascending := ascending_ofList items
  have sortedOthers : (ofList others : SortedList α order).Ascending := ascending_ofList others
  have same : (ofList items : SortedList α order).items.Perm
      (ofList others : SortedList α order).items :=
    (items_ofList_perm items).trans (perm.trans (items_ofList_perm others).symm)
  refine congrArg mk (same.eq_of_pairwise (fun first second member among below above => ?_)
    sorted sortedOthers)
  have equal : order first second = .eq := Std.OrientedCmp.isLE_antisymm
    (Ordering.isLE_iff_ne_gt.2 below) (Ordering.isLE_iff_ne_gt.2 above)
  by_contra different
  have symmetric : Std.Symm fun first second : α => order first second ≠ .eq :=
    ⟨fun first second apart equal => apart (Std.OrientedCmp.eq_comm.1 equal)⟩
  exact apart.forall ((items_ofList_perm items).mem_iff.1 member)
    (perm.mem_iff.2 ((items_ofList_perm others).mem_iff.1 among)) different equal

namespace Ascending

variable {list : SortedList α order} (ascending : list.Ascending)
include ascending

/-- The elements up to a probe come first. -/
theorem upTo (probe : α) : list.items.Pairwise fun first second =>
    order second probe != .gt → order first probe != .gt :=
  ascending.imp fun below next => bne_iff_ne.2 (ne_gt_trans below (bne_iff_ne.1 next))

/-- The elements below a probe come first. -/
theorem below (probe : α) : list.items.Pairwise fun first second =>
    order second probe == .lt → order first probe == .lt := by
  refine ascending.imp fun {first second} before next => beq_iff_eq.2 ?_
  exact Std.TransCmp.lt_of_isLE_of_lt (Ordering.isLE_iff_ne_gt.2 before) (beq_iff_eq.1 next)

/-- In ascending order the prefix up to a probe has all elements up to it. -/
theorem countUpTo_eq (probe : α) :
    list.countUpTo probe = list.items.countP fun item => order item probe != .gt := by
  rw [countUpTo, takeWhile_eq_filter (ascending.upTo probe), List.countP_eq_length_filter]

/-- In ascending order the prefix below a probe has all elements below it. -/
theorem countBelow_eq (probe : α) :
    list.countBelow probe = list.items.countP fun item => order item probe == .lt := by
  rw [countBelow, takeWhile_eq_filter (ascending.below probe), List.countP_eq_length_filter]

/-- Bisection finds the end of the elements up to a probe. -/
theorem bisect_upTo (probe : α) :
    bisect (fun item => order item probe != .gt) list.items 0 list.size = list.countUpTo probe :=
  bisect_eq (ascending.upTo probe) (Nat.zero_le _) (list.countUpTo_le_size probe) (Nat.le_refl _)

/-- Bisection finds the end of the elements below a probe. -/
theorem bisect_below (probe : α) :
    bisect (fun item => order item probe == .lt) list.items 0 list.size = list.countBelow probe :=
  bisect_eq (ascending.below probe) (Nat.zero_le _) (List.takeWhile_sublist _).length_le
    (Nat.le_refl _)

end Ascending

end Transitive

/-- A list and the same list with an element in it: all that compares below or equal is before the
element and all that compares above is after it. -/
structure Inserts (list : SortedList α order) (item : α) (before after : List α) : Prop where
  items : list.items = before ++ after
  inserted : (list.insert item).items = before ++ item :: after
  index : before.length = list.insertionIndex item
  upTo : ∀ other ∈ before, order other item ≠ .gt
  above : ∀ other ∈ after, order other item = .gt

/-- An element goes in between two parts. -/
theorem insertIdx_append (before after : List α) (item : α) :
    (before ++ after).insertIdx before.length item = before ++ item :: after := by
  induction before with
  | nil => rfl
  | cons first rest ih => exact congrArg (first :: ·) ih

/-- An insertion goes after all elements that are not above. -/
theorem items_insert (list : SortedList α order) (item : α) :
    (list.insert item).items =
      list.items.takeWhile (fun other => order other item != .gt) ++
        item :: list.items.dropWhile fun other => order other item != .gt := by
  have split := List.takeWhile_append_dropWhile (p := fun other => order other item != .gt)
    (l := list.items)
  rw [← insertIdx_append, split]
  rfl

/-- An insertion adds one element. -/
theorem items_insert_perm (list : SortedList α order) (item : α) :
    (list.insert item).items.Perm (item :: list.items) := by
  have split := List.takeWhile_append_dropWhile (p := fun other => order other item != .gt)
    (l := list.items)
  have moved : (list.insert item).items.Perm _ := list.items_insert item ▸ List.perm_middle
  rw [split] at moved
  exact moved

/-- In ascending order an insertion has all elements up to it before and all others after. -/
theorem Ascending.inserts [Std.TransCmp order] {list : SortedList α order}
    (ascending : list.Ascending) (item : α) :
    ∃ before after, list.Inserts item before after := by
  refine ⟨_, _, {
    items := List.takeWhile_append_dropWhile.symm
    inserted := list.items_insert item
    index := rfl
    upTo := fun other member => ?_
    above := fun other member => ?_ }⟩
  · exact bne_iff_ne.1 (List.all_eq_true.1 List.all_takeWhile other member)
  · have stays := not_of_mem_dropWhile (ascending.upTo item) member
    simpa using stays

/-- A list stays in order with an element inserted. -/
theorem Ascending.insert [Std.TransCmp order] {list : SortedList α order}
    (ascending : list.Ascending) (item : α) : (list.insert item).Ascending := by
  obtain ⟨before, after, inserts⟩ := ascending.inserts item
  rw [Ascending, inserts.items, List.pairwise_append] at ascending
  obtain ⟨first, last, across⟩ := ascending
  rw [Ascending, inserts.inserted]
  refine List.pairwise_append.2 ⟨first, List.pairwise_cons.2 ⟨fun other member => ?_, last⟩, ?_⟩
  · have swapped : order item other = (order other item).swap := Std.OrientedCmp.eq_swap
    rw [swapped, inserts.above other member]
    nofun
  · intro other member next among
    rcases List.mem_cons.1 among with rfl | later
    · exact inserts.upTo other member
    · exact across other member next later

/-- What compares equal stands between the two ranks. -/
theorem Ascending.order_eq_iff [Std.TransCmp order] {list : SortedList α order}
    (ascending : list.Ascending) {item found : α} {index : Nat}
    (here : list.items[index]? = some found) :
    order found item = .eq ↔ list.countBelow item ≤ index ∧ index < list.countUpTo item := by
  have below := lt_length_takeWhile_iff (ascending.below item) here
  have upTo := lt_length_takeWhile_iff (ascending.upTo item) here
  rw [countBelow, countUpTo, upTo, ← Nat.not_lt, below]
  cases order found item <;> decide

/-- The index that is found is the first whose element passes. -/
theorem findIdx?_eq_some_iff {holds : α → Bool} {items : List α} {index : Nat} :
    items.findIdx? holds = some index ↔
      (∃ found, items[index]? = some found ∧ holds found) ∧
        ∀ earlier < index, ¬ ∃ found, items[earlier]? = some found ∧ holds found := by
  rw [List.findIdx?_eq_some_iff_getElem]
  constructor
  · rintro ⟨inside, here, before⟩
    refine ⟨⟨_, List.getElem?_eq_getElem inside, here⟩, ?_⟩
    rintro earlier less ⟨found, there, holding⟩
    obtain ⟨_, rfl⟩ := List.getElem?_eq_some_iff.1 there
    exact before earlier less holding
  · rintro ⟨⟨found, there, here⟩, before⟩
    obtain ⟨inside, rfl⟩ := List.getElem?_eq_some_iff.1 there
    exact ⟨inside, here, fun earlier less holding =>
      before earlier less ⟨_, List.getElem?_eq_getElem (Nat.lt_trans less inside), holding⟩⟩

section Search

variable [BEq α]

/-- The element at an index is equal to the item and compares equal to it. -/
def Matches (list : SortedList α order) (item : α) (index : Nat) : Prop :=
  ∃ found, list.items[index]? = some found ∧ order found item = .eq ∧ found == item

namespace Ascending

variable [Std.TransCmp order] {list : SortedList α order} (ascending : list.Ascending)
include ascending

/-- A match counts from the first element that is not below. -/
theorem matches_iff {item : α} {offset : Nat} :
    list.Matches item (list.countBelow item + offset) ↔
      ∃ found, ((list.items.drop (list.countBelow item)).take
        (list.countUpTo item - list.countBelow item))[offset]? = some found ∧ found == item := by
  constructor
  · rintro ⟨found, here, same, equal⟩
    have between := (ascending.order_eq_iff here).1 same
    refine ⟨found, ?_, equal⟩
    rw [List.getElem?_take_of_lt (by omega), List.getElem?_drop, here]
  · rintro ⟨found, here, equal⟩
    rw [List.getElem?_take] at here
    split at here
    next inside =>
      rw [List.getElem?_drop] at here
      exact ⟨found, here, (ascending.order_eq_iff here).2 (by omega), equal⟩
    next => cases here

/-- No match comes before the first element that is not below. -/
theorem le_of_matches {item : α} {index : Nat} (matched : list.Matches item index) :
    list.countBelow item ≤ index := by
  obtain ⟨found, here, same, -⟩ := matched
  exact ((ascending.order_eq_iff here).1 same).1

/-- A search finds the first index of an equal element that compares equal. -/
theorem position?_eq_some_iff {item : α} {index : Nat} :
    list.position? item = some index ↔
      list.Matches item index ∧ ∀ earlier < index, ¬ list.Matches item earlier := by
  rw [position?, Option.map_eq_some_iff]
  constructor
  · rintro ⟨offset, found, rfl⟩
    obtain ⟨here, before⟩ := findIdx?_eq_some_iff.1 found
    refine ⟨ascending.matches_iff.2 here, fun earlier less matched => ?_⟩
    obtain ⟨shorter, rfl⟩ := Nat.exists_eq_add_of_le (ascending.le_of_matches matched)
    exact before shorter (by omega) (ascending.matches_iff.1 matched)
  · rintro ⟨matched, before⟩
    obtain ⟨offset, rfl⟩ := Nat.exists_eq_add_of_le (ascending.le_of_matches matched)
    refine ⟨offset, findIdx?_eq_some_iff.2 ⟨ascending.matches_iff.1 matched, ?_⟩, rfl⟩
    exact fun shorter less here => before _ (by omega) (ascending.matches_iff.2 here)

/-- An element is contained if it is matched somewhere. -/
theorem contains_iff_matches {item : α} :
    list.contains item ↔ ∃ index, list.Matches item index := by
  rw [contains, Option.isSome_iff_exists]
  constructor
  · rintro ⟨index, found⟩
    exact ⟨index, (ascending.position?_eq_some_iff.1 found).1⟩
  · intro some
    classical
    exact ⟨Nat.find some, ascending.position?_eq_some_iff.2
      ⟨Nat.find_spec some, fun earlier less => Nat.find_min some less⟩⟩

/-- Where equal elements compare equal, a search misses none. -/
theorem contains_iff (faithful : ∀ first second : α, first == second → order first second = .eq)
    {item : α} : list.contains item ↔ ∃ found ∈ list.items, found == item := by
  rw [ascending.contains_iff_matches]
  constructor
  · rintro ⟨index, found, here, -, equal⟩
    exact ⟨found, List.mem_of_getElem? here, equal⟩
  · rintro ⟨found, among, equal⟩
    obtain ⟨index, here⟩ := List.mem_iff_getElem?.1 among
    exact ⟨index, found, here, faithful found item equal, equal⟩

end Ascending

end Search

end SortedList

end Randomizer
