import Randomizer.Proofs.PriorityQueue.Line
import Randomizer.Proofs.SortedList.History

universe u v

namespace Randomizer

/-- The elements of a list in ascending order. Those that compare equal stand as they came. -/
structure StableSort {α : Type u} (order : α → α → Ordering) (elements sequence : List α) :
    Prop where
  perm : sequence.Perm elements
  ascending : sequence.Pairwise fun first second => order first second ≠ .gt
  level : ∀ probe,
    sequence.filter (order · probe == .eq) = elements.filter (order · probe == .eq)

namespace StableSort

variable {α : Type u} {order : α → α → Ordering} {elements sequence other : List α}

/-- Without their common head both lists are as before. -/
theorem of_cons {first : α} {rest others : List α}
    (sorts : StableSort order (first :: rest) (first :: others)) :
    StableSort order rest others where
  perm := sorts.perm.cons_inv
  ascending := sorts.ascending.tail
  level := by
    intro probe
    have level := sorts.level probe
    rw [List.filter_cons, List.filter_cons] at level
    split at level
    · exact (List.cons.inj level).2
    · exact level

variable [Std.TransCmp order]

/-- The head of an ascending list is above no element. -/
theorem not_above_head {head item : α} {rest : List α}
    (ascending : (head :: rest).Pairwise fun first second => order first second ≠ .gt)
    (member : item ∈ head :: rest) : order head item ≠ .gt := by
  rcases List.mem_cons.1 member with rfl | later
  · have same : order item item = .eq := Std.ReflCmp.compare_self
    rw [same]
    nofun
  · exact List.rel_of_pairwise_cons ascending later

/-- A list that is in order is its only stable sort. -/
theorem eq_of_ascending (sorts : StableSort order elements sequence)
    (ascending : elements.Pairwise fun first second => order first second ≠ .gt) :
    sequence = elements := by
  induction elements generalizing sequence with
  | nil => exact sorts.perm.eq_nil
  | cons first rest ih =>
      cases sequence with
      | nil => exact absurd sorts.perm.symm.eq_nil (List.cons_ne_nil first rest)
      | cons head others =>
          have below := not_above_head ascending (sorts.perm.subset List.mem_cons_self)
          have above :=
            not_above_head sorts.ascending (sorts.perm.symm.subset List.mem_cons_self)
          have tie : order head first = .eq := Std.OrientedCmp.isLE_antisymm
            (Ordering.isLE_iff_ne_gt.2 above) (Ordering.isLE_iff_ne_gt.2 below)
          have level := sorts.level first
          simp only [List.filter_cons, tie, Std.ReflCmp.compare_self, beq_self_eq_true,
            if_true] at level
          obtain ⟨rfl, _⟩ := List.cons.inj level
          rw [ih sorts.of_cons ascending.tail]

/-- Two stable sorts of a list are one. -/
theorem unique (sorts : StableSort order elements sequence)
    (sortsToo : StableSort order elements other) : sequence = other := by
  refine eq_of_ascending ⟨sorts.perm.trans sortsToo.perm.symm, sorts.ascending, ?_⟩
    sortsToo.ascending
  intro probe
  rw [sorts.level, sortsToo.level]

end StableSort

namespace SortedList

variable {α : Type u} {order : α → α → Ordering} [Std.TransCmp order]

/-- A sorted list is the stable sort of its elements. -/
theorem stableSort_ofList (elements : List α) :
    StableSort order elements (ofList elements : SortedList α order).items where
  perm := items_ofList_perm elements
  ascending := ascending_ofList elements
  level := filter_ofList elements

/-- What comes last stands after all that compares equal to it. -/
theorem stableSort_insert {elements : List α} {list : SortedList α order}
    (sorts : StableSort order elements list.items) (item : α) :
    StableSort order (elements ++ [item]) (list.insert item).items where
  perm := (list.items_insert_perm item).trans
    ((sorts.perm.cons item).trans (List.perm_append_singleton item elements).symm)
  ascending :=
    have ascending : list.Ascending := sorts.ascending
    ascending.insert item
  level := by
    intro probe
    have ascending : list.Ascending := sorts.ascending
    obtain ⟨before, after, inserts⟩ := ascending.inserts item
    have level := sorts.level probe
    rw [inserts.items, List.filter_append] at level
    rw [inserts.inserted, List.filter_append, List.filter_append, ← level, List.append_assoc,
      List.filter_cons, List.filter_cons, List.filter_nil]
    by_cases tie : order item probe = .eq
    · have none : after.filter (order · probe == .eq) = [] := by
        refine List.filter_eq_nil_iff.2 fun other member equal => ?_
        have above := inserts.above other member
        rw [Std.TransCmp.congr_right tie, beq_iff_eq.1 equal] at above
        cases above
      rw [none, tie]
      rfl
    · rw [if_neg (mt beq_iff_eq.1 tie), if_neg (mt beq_iff_eq.1 tie), List.append_nil]

/-- Elements inserted one after another come to a stable sort of all. -/
theorem stableSort_insertEach {elements : List α} {list : SortedList α order}
    (sorts : StableSort order elements list.items) (added : List α) :
    StableSort order (elements ++ added) (added.foldl insert list).items := by
  induction added generalizing elements list with
  | nil =>
      rw [List.append_nil]
      exact sorts
  | cons item rest ih =>
      rw [List.append_cons]
      exact ih (stableSort_insert sorts item)

end SortedList

namespace PriorityQueue

variable {κ : Type v} {α : Type u}

/-- Elements with their keys. -/
def keyed (key : α → κ) (elements : List α) : List (κ × α) :=
  elements.map fun element => (key element, element)

namespace Line

/-- A line of a list holds the list. -/
theorem content_ofList (items : List (κ × α)) :
    (ofList items).waiting.map Entry.content = items := by
  rw [ofList, List.map_map]
  exact List.zipIdx_map_fst 0 items

variable {key : α → κ} {elements : List α}

/-- The entries of a keyed list are its elements under their keys. -/
theorem of_mem_keyed {entry : Entry κ α} (member : entry ∈ (ofList (keyed key elements)).waiting) :
    entry.value ∈ elements ∧ entry.key = key entry.value := by
  have among := List.mem_map_of_mem (f := Entry.content) member
  rw [content_ofList] at among
  obtain ⟨element, inElements, same⟩ := List.mem_map.1 among
  obtain ⟨sameKey, sameValue⟩ := Prod.mk.inj same
  rw [← sameKey, ← sameValue]
  exact ⟨inElements, rfl⟩

/-- The entries of a keyed list hold its elements in order. -/
theorem values_keyed : (ofList (keyed key elements)).waiting.map Entry.value = elements := by
  have contents := congrArg (List.map Prod.snd) (content_ofList (keyed key elements))
  rw [List.map_map, keyed, List.map_map] at contents
  exact contents.trans (List.map_id elements)

variable [Ord κ]

/-- The ranked entries of a keyed list are its elements under their keys. -/
theorem content_ranked_keyed :
    (ofList (keyed key elements)).ranked.map Entry.content =
      keyed key ((ofList (keyed key elements)).ranked.map Entry.value) := by
  refine (List.map_congr_left fun entry member => ?_).trans List.map_map.symm
  have sameKey := (of_mem_keyed ((ranked_perm _).subset member)).2
  rw [Entry.content, sameKey]
  rfl

variable [Std.TransOrd κ] {line : Line κ α}

/-- What leaves under keys that compare equal leaves as it came. -/
theorem Numbered.filter_ranked (numbered : line.Numbered) {among : Entry κ α → Bool}
    (level : ∀ first ∈ line.waiting, ∀ second ∈ line.waiting, among first → among second →
      compare first.key second.key = .eq) :
    line.ranked.filter among = line.waiting.filter among := by
  have ascends : (line.ranked.filter among).Pairwise fun first second =>
      first.arrival < second.arrival := by
    refine (numbered.ranked_ascends.filter among).imp_of_mem ?_
    intro first second one other before
    obtain ⟨inFirst, first⟩ := List.mem_filter.1 one
    obtain ⟨inSecond, second⟩ := List.mem_filter.1 other
    exact (Entry.keys_of_order_eq_lt before).2 (level _ (line.ranked_perm.subset inFirst) _
      (line.ranked_perm.subset inSecond) first second)
  refine (line.ranked_perm.filter among).eq_of_pairwise ?_ ascends (numbered.ascending.filter among)
  intro first second _ _ before after
  exact absurd after (Nat.lt_asymm before)

/-- A queue that is pulled to its end gives its line in the order of leaving, and none is left. -/
theorem Tracks.drain {queue : PriorityQueue κ α} (tracks : line.Tracks queue) :
    queue.drain = line.ranked.map Entry.content ∧ (queue.take queue.size).2.isEmpty := by
  obtain ⟨taken, left⟩ := tracks.take queue.size
  have all : line.ranked.length ≤ queue.size := by
    rw [line.ranked_perm.length_eq, ← tracks.length_eq]
    exact Nat.le_refl _
  constructor
  · rw [PriorityQueue.drain, taken, List.take_of_length_le all]
  · have none := left.entries.trans (tracks.numbered.leave_perm queue.size)
    rw [List.drop_of_length_le all] at none
    rw [PriorityQueue.isEmpty, ← Array.isEmpty_toList, none.eq_nil]
    rfl

/-- Under keys that compare as the elements do, the elements leave in their stable sort. -/
theorem stableSort_ranked {order : α → α → Ordering} [Std.TransCmp order]
    (faithful : ∀ first ∈ elements, ∀ second ∈ elements,
      compare (key first) (key second) = order first second) :
    StableSort order elements ((ofList (keyed key elements)).ranked.map Entry.value) := by
  have numbered : (ofList (keyed key elements)).Numbered := (Tracks.ofList _).numbered
  have keys {first second : Entry κ α} (inFirst : first ∈ (ofList (keyed key elements)).waiting)
      (inSecond : second ∈ (ofList (keyed key elements)).waiting) :
      compare first.key second.key = order first.value second.value := by
    obtain ⟨among, sameKey⟩ := of_mem_keyed inFirst
    obtain ⟨amongSecond, sameKeySecond⟩ := of_mem_keyed inSecond
    rw [sameKey, sameKeySecond, faithful _ among _ amongSecond]
  constructor
  · have same := (ranked_perm (ofList (keyed key elements))).map Entry.value
    rwa [values_keyed] at same
  · refine List.pairwise_map.2 (numbered.ranked_ascends.imp_of_mem ?_)
    intro first second member memberSecond before
    rw [← keys ((ranked_perm _).subset member) ((ranked_perm _).subset memberSecond)]
    exact Ordering.isLE_iff_ne_gt.1 (Entry.keys_of_order_eq_lt before).1
  · intro probe
    let ties (entry : Entry κ α) : Bool := order entry.value probe == .eq
    have level : (ofList (keyed key elements)).ranked.filter ties =
        (ofList (keyed key elements)).waiting.filter ties := by
      refine numbered.filter_ranked fun first inFirst second inSecond tie tieSecond => ?_
      rw [keys inFirst inSecond]
      exact Std.TransCmp.eq_trans (beq_iff_eq.1 tie)
        (Std.OrientedCmp.eq_comm.1 (beq_iff_eq.1 tieSecond))
    calc ((ofList (keyed key elements)).ranked.map Entry.value).filter (order · probe == .eq)
        = ((ofList (keyed key elements)).ranked.filter ties).map Entry.value := List.filter_map
      _ = ((ofList (keyed key elements)).waiting.filter ties).map Entry.value := by rw [level]
      _ = ((ofList (keyed key elements)).waiting.map Entry.value).filter
          (order · probe == .eq) := by
        rw [List.filter_map]
        rfl
      _ = elements.filter (order · probe == .eq) := by rw [values_keyed]

end Line

end PriorityQueue

namespace SortedList

variable {α : Type u} {order : α → α → Ordering} [Std.TransCmp order]

/-- A list has one stable sort, and there are three ways to it: its elements sorted at once,
inserted into an empty list as they come, or put into a queue as they come, under keys that compare
as they do, and drained from it. Nothing is left in the queue. -/
theorem constructions_agree (elements : List α) :
    (∀ sequence, StableSort order elements sequence ↔
      sequence = (ofList elements : SortedList α order).items) ∧
    elements.foldl insert ∅ = (ofList elements : SortedList α order) ∧
    ∀ {κ : Type v} [Ord κ] [Std.TransOrd κ] (key : α → κ),
      (∀ first ∈ elements, ∀ second ∈ elements,
        compare (key first) (key second) = order first second) →
      let queue := PriorityQueue.ofList (PriorityQueue.keyed key elements)
      queue.drain = PriorityQueue.keyed key (ofList elements : SortedList α order).items ∧
        (queue.take queue.size).2.isEmpty := by
  have sorted : StableSort order elements (ofList elements : SortedList α order).items :=
    stableSort_ofList elements
  refine ⟨fun sequence => ⟨fun sorts => sorts.unique sorted, fun same => same ▸ sorted⟩, ?_, ?_⟩
  · have nothing : StableSort order [] (∅ : SortedList α order).items :=
      ⟨.refl [], .nil, fun _ => rfl⟩
    exact congrArg mk ((stableSort_insertEach nothing elements).unique sorted)
  · intro κ _ _ key faithful queue
    have tracks : (PriorityQueue.Line.ofList (PriorityQueue.keyed key elements)).Tracks queue :=
      PriorityQueue.Line.Tracks.ofList _
    obtain ⟨drained, none⟩ := tracks.drain
    have leaves := PriorityQueue.Line.stableSort_ranked faithful
    rw [drained, PriorityQueue.Line.content_ranked_keyed, leaves.unique sorted]
    exact ⟨rfl, none⟩

/-- Letters behind numbers, of which two tie. -/
theorem constructions_agree_tie :
    StableSort (compareOn Prod.fst) [(2, 'a'), (1, 'b'), (2, 'c')] [(1, 'b'), (2, 'a'), (2, 'c')] ∧
      ([(2, 'a'), (1, 'b'), (2, 'c')].foldl insert ∅ :
        SortedList (Nat × Char) (compareOn Prod.fst)).items = [(1, 'b'), (2, 'a'), (2, 'c')] ∧
      (PriorityQueue.ofList (PriorityQueue.keyed Prod.fst [(2, 'a'), (1, 'b'), (2, 'c')])).drain =
        PriorityQueue.keyed Prod.fst [(1, 'b'), (2, 'a'), (2, 'c')] := by
  obtain ⟨sorts, inserted, drained⟩ := @constructions_agree (Nat × Char) (compareOn Prod.fst) _
    [(2, 'a'), (1, 'b'), (2, 'c')]
  have sorted : (ofList [(2, 'a'), (1, 'b'), (2, 'c')] :
      SortedList (Nat × Char) (compareOn Prod.fst)).items = [(1, 'b'), (2, 'a'), (2, 'c')] := by cbv
  rw [inserted, ← sorted]
  exact ⟨(sorts _).2 rfl, rfl, (drained Prod.fst fun _ _ _ _ => rfl).1⟩

end SortedList

end Randomizer
