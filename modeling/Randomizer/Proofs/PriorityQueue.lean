import Randomizer.PriorityQueue

universe u v

namespace Randomizer

namespace PriorityQueue

variable {κ : Type u} {α : Type v}

/-- A queue lists as many items as it holds. -/
theorem length_items (queue : PriorityQueue κ α) : queue.items.length = queue.size := by
  simp [items, size]

/-- The last place holds the first entry after the two are swapped. -/
theorem pop_swap_perm (entries : Array (Entry κ α)) (filled : 0 < entries.size)
    (inside : entries.size - 1 < entries.size) :
    (entries[0] :: (entries.swap 0 (entries.size - 1) filled inside).pop.toList).Perm
      entries.toList := by
  have swapped := (Array.swap_perm filled inside).toList
  have some : (entries.swap 0 (entries.size - 1) filled inside).toList ≠ [] :=
    List.ne_nil_of_length_pos (by simpa using filled)
  have last : (entries.swap 0 (entries.size - 1) filled inside).toList.getLast some =
      entries[0] := by
    simp [List.getLast_eq_getElem]
  rw [← List.dropLast_concat_getLast some, last] at swapped
  exact List.perm_append_comm.trans swapped

variable [Ord κ]

/-- Rising only moves entries. -/
theorem siftUp_perm (entries : Array (Entry κ α)) (index : Nat) :
    (siftUp entries index).Perm entries := by
  induction entries, index using siftUp.induct with
  | case1 entries index inside parent above precedes ih =>
      rw [siftUp, dif_pos inside, if_pos precedes]
      exact ih.trans (Array.swap_perm inside.2 above)
  | case2 entries index inside parent above stays =>
      rw [siftUp, dif_pos inside, if_neg stays]
  | case3 entries index outside => rw [siftUp, dif_neg outside]

/-- Sinking only moves entries. -/
theorem siftDown_perm (entries : Array (Entry κ α)) (index : Nat) :
    (siftDown entries index).Perm entries := by
  induction entries, index using siftDown.induct with
  | case1 entries index left here child below precedes ih =>
      rw [siftDown, dif_pos left, if_pos precedes]
      exact ih.trans (Array.swap_perm below here)
  | case2 entries index left here child below stays =>
      rw [siftDown, dif_pos left, if_neg stays]
  | case3 entries index leaf => rw [siftDown, dif_neg leaf]

/-- An item that is enqueued joins those that are there. -/
theorem items_enqueue_perm (queue : PriorityQueue κ α) (key : κ) (value : α) :
    (queue.enqueue key value).items.Perm ((key, value) :: queue.items) := by
  have risen := (siftUp_perm (queue.entries.push ⟨key, queue.arrivals, value⟩)
    queue.entries.size).toList
  rw [Array.toList_push] at risen
  have moved := (risen.trans List.perm_append_comm).map fun entry => (entry.key, entry.value)
  simpa only [items, enqueue, List.singleton_append, List.map_cons] using moved

/-- Items that are enqueued join those that are there. -/
theorem items_enqueueAll_perm (queue : PriorityQueue κ α) (added : List (κ × α)) :
    (queue.enqueueAll added).items.Perm (added ++ queue.items) := by
  induction added generalizing queue with
  | nil => exact List.Perm.refl _
  | cons pair rest ih =>
      have first := items_enqueue_perm queue pair.1 pair.2
      exact (ih (queue.enqueue pair.1 pair.2)).trans
        ((first.append_left rest).trans List.perm_middle)

/-- A queue of a list holds the list. -/
theorem items_ofList_perm (list : List (κ × α)) : (ofList list).items.Perm list := by
  have all := items_enqueueAll_perm (withCapacity (max list.length defaultCapacity)) list
  have none : (withCapacity (max list.length defaultCapacity) : PriorityQueue κ α).items = [] := rfl
  rwa [none, List.append_nil] at all

/-- What is extracted and what remains make up the queue. -/
theorem items_of_extract? {queue rest : PriorityQueue κ α} {least : κ × α}
    (extracted : queue.extract? = some (least, rest)) :
    (least :: rest.items).Perm queue.items := by
  unfold extract? at extracted
  split at extracted
  next filled =>
    cases extracted
    have swapped := pop_swap_perm queue.entries filled (by omega)
    have sunk := (siftDown_perm (queue.entries.swap 0 (queue.entries.size - 1) filled
      (by omega)).pop 0).toList
    exact ((sunk.cons queue.entries[0]).trans swapped).map fun entry => (entry.key, entry.value)
  next => cases extracted

/-- Nothing is extracted only from an empty queue. -/
theorem size_of_extract?_eq_none {queue : PriorityQueue κ α} (empty : queue.extract? = none) :
    queue.size = 0 := by
  unfold extract? at empty
  split at empty
  · cases empty
  next none => exact Nat.eq_zero_of_not_pos none

/-- A queue is taken whole when as many items are taken as it holds. -/
theorem take_size_perm (count : Nat) (queue : PriorityQueue κ α) (size : queue.size = count) :
    (queue.take count).1.Perm queue.items := by
  induction count generalizing queue with
  | zero =>
      rw [List.eq_nil_of_length_eq_zero ((length_items queue).trans size)]
      exact List.Perm.refl _
  | succ count ih =>
      unfold take
      cases found : queue.extract? with
      | none =>
          rw [size_of_extract?_eq_none found] at size
          cases size
      | some extracted =>
          obtain ⟨least, rest⟩ := extracted
          have all := items_of_extract? found
          have fewer := all.length_eq
          rw [List.length_cons, length_items, length_items, size] at fewer
          exact ((ih rest (Nat.succ.inj fewer)).cons least).trans all

/-- A queue gives up each of its entries once. -/
theorem drain_perm (queue : PriorityQueue κ α) : queue.drain.Perm queue.items :=
  take_size_perm queue.size queue rfl

/-- A queue of a list gives the list back in some order. -/
theorem drain_ofList_perm (list : List (κ × α)) : (ofList list).drain.Perm list :=
  (drain_perm _).trans (items_ofList_perm list)

end PriorityQueue

end Randomizer
