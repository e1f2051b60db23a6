import Mathlib.Data.List.Forall2
import Mathlib.Data.List.Permutation
import Randomizer.Proofs.PriorityQueue.Heap

/-!
A queue as a line. The line lists its entries as they came and looks for those that leave first only
when it is asked for them. Whatever is done with a queue, it answers as the line does.
-/

universe u v

namespace Randomizer

namespace PriorityQueue

variable {κ : Type u} {α : Type v}

def Entry.content (entry : Entry κ α) : κ × α := (entry.key, entry.value)

/-- What a queue is asked for. -/
inductive Operation (κ : Type u) (α : Type v) where
  | enqueue (key : κ) (value : α)
  | peek
  | tryExtract
  | extract
  | updateHead (key : κ)
  /-- A number of entries is pulled, as far as there are any. -/
  | drain (count : Nat)
  | clear
  | size
  | isEmpty
  | items
  deriving DecidableEq, Repr

inductive Answer (κ : Type u) (α : Type v) where
  | done
  | entry (found : Option (κ × α))
  | extracted (result : Except Error (κ × α))
  | updated (result : Except Error Unit)
  | drained (entries : List (κ × α))
  | size (count : Nat)
  | isEmpty (holds : Bool)
  | items (entries : List (κ × α))

/-- The same answer, but for the order of entries in no particular order. -/
inductive Answer.Agrees : Answer κ α → Answer κ α → Prop where
  | same (answer : Answer κ α) : Agrees answer answer
  | items {entries others : List (κ × α)} : entries.Perm others →
      Agrees (.items entries) (.items others)

/-- The answers to one request after another, and the state that is left. -/
def converse {ω σ ρ : Type*} (perform : ω → σ → ρ × σ) : List ω → σ → List ρ × σ
  | [], state => ([], state)
  | request :: rest, state =>
    let (answer, next) := perform request state
    let (answers, last) := converse perform rest next
    (answer :: answers, last)

/-- A queue starts empty, with room for some number of entries, or with entries in it. -/
inductive Start (κ : Type u) (α : Type v) where
  | empty
  | withCapacity (capacity : Nat)
  | ofList (items : List (κ × α))

section Order

variable [Ord κ]

def Start.queue : Start κ α → PriorityQueue κ α
  | empty => ∅
  | withCapacity capacity => PriorityQueue.withCapacity capacity
  | ofList items => PriorityQueue.ofList items

def perform (operation : Operation κ α) (queue : PriorityQueue κ α) :
    Answer κ α × PriorityQueue κ α :=
  match operation with
  | .enqueue key value => (.done, queue.enqueue key value)
  | .peek => (.entry queue.peek?, queue)
  | .tryExtract =>
    match queue.extract? with
    | some (least, rest) => (.entry (some least), rest)
    | none => (.entry none, queue)
  | .extract =>
    match queue.extract with
    | .ok (least, rest) => (.extracted (.ok least), rest)
    | .error error => (.extracted (.error error), queue)
  | .updateHead key =>
    match queue.updateHead key with
    | .ok next => (.updated (.ok ()), next)
    | .error error => (.updated (.error error), queue)
  | .drain count => (.drained (queue.take count).1, (queue.take count).2)
  | .clear => (.done, queue.clear)
  | .size => (.size queue.size, queue)
  | .isEmpty => (.isEmpty queue.isEmpty, queue)
  | .items => (.items queue.items, queue)

end Order

/-- Entries as they came, and the number of arrivals so far. -/
structure Line (κ : Type u) (α : Type v) where
  waiting : List (Entry κ α)
  arrivals : Nat

namespace Line

def empty : Line κ α := ⟨[], 0⟩

/-- The arrivals count from zero. -/
def ofList (items : List (κ × α)) : Line κ α :=
  ⟨items.zipIdx.map fun (item, arrival) => ⟨item.1, arrival, item.2⟩, items.length⟩

def enqueue (line : Line κ α) (key : κ) (value : α) : Line κ α :=
  ⟨line.waiting ++ [⟨key, line.arrivals, value⟩], line.arrivals + 1⟩

/-- The entry with an arrival number gets a new key and keeps its number. -/
def rekey (line : Line κ α) (arrival : Nat) (key : κ) : Line κ α :=
  { line with waiting := line.waiting.map fun entry =>
      if entry.arrival = arrival then { entry with key } else entry }

/-- The line without the entries that have left. -/
def without (line : Line κ α) (gone : List (Entry κ α)) : Line κ α :=
  { line with waiting := line.waiting.filter fun entry =>
      !gone.any fun other => other.arrival == entry.arrival }

variable [Ord κ]

/-- The entries in the order of leaving. -/
def ranked (line : Line κ α) : List (Entry κ α) :=
  line.waiting.mergeSort fun first second => (Entry.order first second).isLE

/-- The line when a number of entries have left. -/
def leave (line : Line κ α) (count : Nat) : Line κ α := line.without (line.ranked.take count)

/-- The entry that leaves first. -/
def first? (line : Line κ α) : Option (Entry κ α) := line.ranked.head?

def perform (operation : Operation κ α) (line : Line κ α) : Answer κ α × Line κ α :=
  match operation with
  | .enqueue key value => (.done, line.enqueue key value)
  | .peek => (.entry (line.first?.map Entry.content), line)
  | .tryExtract => (.entry (line.first?.map Entry.content), line.leave 1)
  | .extract =>
    match line.first? with
    | some first => (.extracted (.ok first.content), line.leave 1)
    | none => (.extracted (.error .emptyQueue), line)
  | .updateHead key =>
    match line.first? with
    | some first => (.updated (.ok ()), line.rekey first.arrival key)
    | none => (.updated (.error .emptyQueue), line)
  | .drain count => (.drained ((line.ranked.take count).map Entry.content), line.leave count)
  | .clear => (.done, empty)
  | .size => (.size line.waiting.length, line)
  | .isEmpty => (.isEmpty line.waiting.isEmpty, line)
  | .items => (.items (line.waiting.map Entry.content), line)

end Line

def Start.line : Start κ α → Line κ α
  | empty => .empty
  | withCapacity _ => .empty
  | ofList items => .ofList items

namespace Line

/-- The entries stand as they came, each under a number of its own. -/
structure Numbered (line : Line κ α) : Prop where
  ascending : line.waiting.Pairwise fun first second => first.arrival < second.arrival
  counted : ∀ entry ∈ line.waiting, entry.arrival < line.arrivals

namespace Numbered

variable {line : Line κ α} (numbered : line.Numbered)
include numbered

/-- An entry that joins the line gets the next number. -/
theorem enqueue (key : κ) (value : α) : (line.enqueue key value).Numbered where
  ascending := by
    refine List.pairwise_append.2 ⟨numbered.ascending, List.pairwise_singleton _ _, ?_⟩
    intro entry member added memberAdded
    rw [List.mem_singleton.1 memberAdded]
    exact numbered.counted entry member
  counted := by
    intro entry member
    rcases List.mem_append.1 member with known | added
    · exact Nat.lt_succ_of_lt (numbered.counted entry known)
    · rw [List.mem_singleton.1 added]
      exact Nat.lt_succ_self _

/-- Entries that leave take no number from the others. -/
theorem without (gone : List (Entry κ α)) : (line.without gone).Numbered where
  ascending := numbered.ascending.filter _
  counted := fun entry member => numbered.counted entry ((List.mem_filter.1 member).1)

/-- A new key leaves the numbers as they are. -/
theorem rekey (arrival : Nat) (key : κ) : (line.rekey arrival key).Numbered where
  ascending := by
    refine List.pairwise_map.2 (numbered.ascending.imp fun {first second} before => ?_)
    split <;> split <;> exact before
  counted := by
    intro entry member
    obtain ⟨source, among, rfl⟩ := List.mem_map.1 member
    split
    · exact numbered.counted source among
    · exact numbered.counted source among

end Numbered

theorem numbered_empty : (empty : Line κ α).Numbered := ⟨.nil, nofun⟩

/-- A line of a list is joined by the last element at the end. -/
theorem ofList_append (items : List (κ × α)) (key : κ) (value : α) :
    ofList (items ++ [(key, value)]) = (ofList items).enqueue key value := by
  simp [ofList, enqueue, List.zipIdx_append]

/-- Entries may leave at once or one part after the other. -/
theorem without_without (line : Line κ α) (gone others : List (Entry κ α)) :
    (line.without gone).without others = line.without (gone ++ others) := by
  simp [without, List.filter_filter, Bool.and_comm]

theorem without_nil (line : Line κ α) : line.without [] = line := by
  have all : line.waiting.filter (fun _ => true) = line.waiting :=
    List.filter_eq_self.2 fun _ _ => rfl
  simp [without, all]

variable [Ord κ]

/-- The ranked entries are those that wait. -/
theorem ranked_perm (line : Line κ α) : line.ranked.Perm line.waiting :=
  List.mergeSort_perm _ _

namespace Numbered

variable {line : Line κ α} (numbered : line.Numbered)
include numbered

/-- No two ranked entries arrived at once. -/
theorem ranked_apart :
    line.ranked.Pairwise fun first second => first.arrival ≠ second.arrival := by
  have apart := numbered.ascending.imp fun before => Nat.ne_of_lt before
  exact line.ranked_perm.symm.pairwise apart fun different => different.symm

/-- What waits after some have left are the ranked entries after those. -/
theorem leave_perm (count : Nat) :
    (line.leave count).waiting.Perm (line.ranked.drop count) := by
  have apart := numbered.ranked_apart
  rw [← List.take_append_drop count line.ranked] at apart
  let stays (entry : Entry κ α) : Bool :=
    !(line.ranked.take count).any fun other => other.arrival == entry.arrival
  have gone : (line.ranked.take count).filter stays = [] := by
    refine List.filter_eq_nil_iff.2 fun entry among => ?_
    simp only [stays, Bool.not_eq_true, Bool.not_eq_false', List.any_eq_true, beq_iff_eq]
    exact ⟨entry, among, rfl⟩
  have left : (line.ranked.drop count).filter stays = line.ranked.drop count := by
    refine List.filter_eq_self.2 fun entry among => ?_
    simp only [stays, Bool.not_eq_true', List.any_eq_false, beq_iff_eq]
    exact fun other taken => (List.pairwise_append.1 apart).2.2 other taken entry among
  have filtered : line.ranked.filter stays = line.ranked.drop count := by
    rw [← List.take_append_drop count line.ranked, List.filter_append, gone,
      List.take_append_drop, left, List.nil_append]
  have same := line.ranked_perm.symm.filter stays
  rw [filtered] at same
  exact same

variable [Std.TransOrd κ]

/-- Every entry leaves strictly before those after it. -/
theorem ranked_ascends :
    line.ranked.Pairwise fun first second => Entry.order first second = .lt := by
  have transitive (first second third : Entry κ α) (below : (Entry.order first second).isLE)
      (belowThird : (Entry.order second third).isLE) : (Entry.order first third).isLE :=
    Std.TransCmp.isLE_trans below belowThird
  have total (first second : Entry κ α) :
      (Entry.order first second).isLE || (Entry.order second first).isLE := by
    have swapped : Entry.order second first = (Entry.order first second).swap :=
      Std.OrientedCmp.eq_swap
    rw [swapped]
    cases Entry.order first second <;> rfl
  have sorted := List.pairwise_mergeSort transitive total line.waiting
  exact (sorted.and numbered.ranked_apart).imp fun ⟨before, apart⟩ =>
    Entry.order_eq_lt before apart

/-- There is one order of leaving. -/
theorem ranked_eq {entries : List (Entry κ α)} (same : entries.Perm line.waiting)
    (ascends : entries.Pairwise fun first second => Entry.order first second = .lt) :
    line.ranked = entries := by
  refine List.Perm.eq_of_pairwise ?_ numbered.ranked_ascends ascends
    (line.ranked_perm.trans same.symm)
  intro first second _ _ before after
  have swapped : Entry.order first second = (Entry.order second first).swap :=
    Std.OrientedCmp.eq_swap
  rw [before, after] at swapped
  cases swapped

/-- When some leave, the rest keep their ranks. -/
theorem ranked_leave (count : Nat) : (line.leave count).ranked = line.ranked.drop count :=
  (numbered.without _).ranked_eq (numbered.leave_perm count).symm
    (numbered.ranked_ascends.sublist (List.drop_sublist _ _))

end Numbered

end Line

variable [Ord κ]

/-- The queue holds what the line holds, under the same numbers and as a heap. -/
structure Line.Tracks (line : Line κ α) (queue : PriorityQueue κ α) : Prop where
  numbered : line.Numbered
  arrivals : queue.arrivals = line.arrivals
  entries : queue.entries.toList.Perm line.waiting
  heaped : Heaped queue.entries

namespace Line.Tracks

variable {line : Line κ α} {queue : PriorityQueue κ α}

/-- An empty queue tracks the empty line. -/
theorem empty (capacity : Nat) : Line.empty.Tracks (withCapacity capacity : PriorityQueue κ α) where
  numbered := numbered_empty
  arrivals := rfl
  entries := List.Perm.refl _
  heaped := nofun

/-- A queue that is cleared tracks the empty line. -/
theorem clear (queue : PriorityQueue κ α) : Line.empty.Tracks queue.clear where
  numbered := numbered_empty
  arrivals := rfl
  entries := List.Perm.refl _
  heaped := nofun

/-- A queue holds the entries that wait. -/
theorem items_perm (tracks : line.Tracks queue) :
    queue.items.Perm (line.waiting.map Entry.content) :=
  tracks.entries.map Entry.content

/-- A queue holds as many entries as wait. -/
theorem length_eq (tracks : line.Tracks queue) : queue.entries.size = line.waiting.length := by
  rw [← tracks.entries.length_eq, Array.length_toList]

/-- A queue is empty where no entry is ranked. -/
theorem size_eq_of_ranked_eq_nil (tracks : line.Tracks queue) (ranked : line.ranked = []) :
    queue.entries.size = 0 := by
  rw [tracks.length_eq, ← line.ranked_perm.length_eq, ranked, List.length_nil]

/-- Nothing is extracted where no entry is ranked. -/
theorem extract?_eq_none (tracks : line.Tracks queue) (ranked : line.ranked = []) :
    queue.extract? = none := by
  rw [PriorityQueue.extract?, dif_neg (by simp [tracks.size_eq_of_ranked_eq_nil ranked])]

variable [Std.TransOrd κ]

/-- A queue tracks the line when an entry joins both. -/
theorem enqueue (tracks : line.Tracks queue) (key : κ) (value : α) :
    (line.enqueue key value).Tracks (queue.enqueue key value) where
  numbered := tracks.numbered.enqueue key value
  arrivals := by rw [PriorityQueue.enqueue, Line.enqueue, tracks.arrivals]
  entries := by
    have risen := (siftUp_perm (queue.entries.push ⟨key, queue.arrivals, value⟩)
      queue.entries.size).toList
    rw [Array.toList_push, tracks.arrivals] at risen
    rw [PriorityQueue.enqueue, Line.enqueue, tracks.arrivals]
    exact risen.trans (tracks.entries.append_right _)
  heaped := tracks.heaped.push _

/-- A queue tracks the line when several entries join both. -/
theorem enqueueAll (tracks : line.Tracks queue) {listed : List (κ × α)} (added : List (κ × α))
    (same : line = .ofList listed) :
    (Line.ofList (listed ++ added)).Tracks (queue.enqueueAll added) := by
  subst same
  induction added generalizing queue listed with
  | nil =>
      rw [List.append_nil]
      exact tracks
  | cons item rest ih =>
      have next := tracks.enqueue item.1 item.2
      rw [← ofList_append] at next
      have all := ih next
      rw [List.append_assoc] at all
      exact all

/-- A queue of a list tracks the line of the list. -/
theorem ofList (items : List (κ × α)) : (Line.ofList items).Tracks (PriorityQueue.ofList items) :=
  have started : (Line.ofList []).Tracks (withCapacity _) := Tracks.empty _
  started.enqueueAll items rfl

/-- The entry on top of the heap is the one that leaves first. -/
theorem exists_ranked_eq_cons (tracks : line.Tracks queue) (filled : 0 < queue.entries.size) :
    ∃ rest, line.ranked = queue.entries[0] :: rest := by
  have among : queue.entries[0] ∈ line.ranked :=
    (tracks.entries.trans line.ranked_perm.symm).subset (by simp)
  have ascends := tracks.numbered.ranked_ascends
  cases ranked : line.ranked with
  | nil =>
      rw [ranked] at among
      cases among
  | cons first rest =>
      refine ⟨rest, ?_⟩
      rw [ranked] at among ascends
      rcases List.mem_cons.1 among with same | later
      · rw [same]
      · have inQueue : first ∈ queue.entries.toList :=
          (tracks.entries.trans line.ranked_perm.symm).symm.subset (by simp [ranked])
        obtain ⟨index, inside, here⟩ := List.mem_iff_getElem.1 inQueue
        have below := tracks.heaped.isLE_head index (by simpa using inside)
        rw [Array.getElem_toList] at here
        rw [here] at below
        have before := List.rel_of_pairwise_cons ascends later
        have swapped : Entry.order queue.entries[0] first =
            (Entry.order first queue.entries[0]).swap := Std.OrientedCmp.eq_swap
        rw [before] at swapped
        rw [swapped] at below
        cases below

/-- The first ranked entry is at the head of the heap. -/
theorem head_of_ranked_eq_cons (tracks : line.Tracks queue) {first : Entry κ α}
    {rest : List (Entry κ α)} (ranked : line.ranked = first :: rest) :
    ∃ filled : 0 < queue.entries.size, queue.entries[0] = first := by
  have filled : 0 < queue.entries.size := by
    rw [tracks.length_eq, ← line.ranked_perm.length_eq, ranked]
    exact Nat.succ_pos _
  obtain ⟨others, same⟩ := tracks.exists_ranked_eq_cons filled
  rw [ranked] at same
  exact ⟨filled, (List.cons.inj same).1.symm⟩

/-- The first ranked entry is extracted, and the queue tracks the line without it. -/
theorem extract?_eq_some (tracks : line.Tracks queue) {first : Entry κ α}
    {rest : List (Entry κ α)} (ranked : line.ranked = first :: rest) :
    ∃ later, queue.extract? = some (first.content, later) ∧ (line.leave 1).Tracks later := by
  obtain ⟨filled, head⟩ := tracks.head_of_ranked_eq_cons ranked
  refine ⟨_, by rw [PriorityQueue.extract?, dif_pos filled, head]; rfl, ?_⟩
  have popped := pop_swap_perm queue.entries filled (by omega)
  have all := popped.trans (tracks.entries.trans line.ranked_perm.symm)
  rw [ranked, head] at all
  have left := tracks.numbered.leave_perm 1
  rw [ranked, List.drop_one, List.tail_cons] at left
  exact {
    numbered := tracks.numbered.without _
    arrivals := tracks.arrivals
    entries := (siftDown_perm _ 0).toList.trans (all.cons_inv.trans left.symm)
    heaped := tracks.heaped.pop filled (by omega) }

/-- The first ranked entries are taken, and the queue tracks the line without them. -/
theorem take (tracks : line.Tracks queue) (count : Nat) :
    (queue.take count).1 = (line.ranked.take count).map Entry.content ∧
      (line.leave count).Tracks (queue.take count).2 := by
  induction count generalizing line queue with
  | zero =>
      refine ⟨rfl, ?_⟩
      rw [Line.leave, List.take_zero, without_nil]
      exact tracks
  | succ count ih =>
      cases ranked : line.ranked with
      | nil =>
          rw [PriorityQueue.take, tracks.extract?_eq_none ranked, Line.leave, ranked,
            List.take_nil, without_nil]
          exact ⟨rfl, tracks⟩
      | cons first rest =>
          obtain ⟨later, extracted, next⟩ := tracks.extract?_eq_some ranked
          obtain ⟨taken, remaining⟩ := ih next
          have others : (line.leave 1).ranked = rest := by
            rw [tracks.numbered.ranked_leave, ranked, List.drop_one, List.tail_cons]
          have both : (line.leave 1).leave count = line.leave (count + 1) := by
            rw [Line.leave, others, Line.leave, without_without, Line.leave, ranked]
            rfl
          rw [PriorityQueue.take, extracted]
          rw [others] at taken
          rw [both] at remaining
          exact ⟨congrArg (first.content :: ·) taken, remaining⟩

/-- The entry on top of the heap gets the key of the one that leaves first. -/
theorem updateHead (tracks : line.Tracks queue) {first : Entry κ α} {rest : List (Entry κ α)}
    (ranked : line.ranked = first :: rest) (key : κ) :
    ∃ next, queue.updateHead key = .ok next ∧ (line.rekey first.arrival key).Tracks next := by
  obtain ⟨filled, head⟩ := tracks.head_of_ranked_eq_cons ranked
  refine ⟨_, by rw [PriorityQueue.updateHead, dif_pos filled, head], ?_⟩
  obtain ⟨tail, listed⟩ : ∃ tail, queue.entries.toList = first :: tail := by
    have top : queue.entries.toList.head? = some first := by
      rw [List.head?_eq_getElem?, Array.getElem?_toList, Array.getElem?_eq_getElem filled, head]
    exact List.head?_eq_some_iff.1 top
  have among := tracks.entries.trans line.ranked_perm.symm
  have apart := tracks.numbered.ranked_apart
  rw [listed, ranked] at among
  rw [ranked] at apart
  have unchanged : tail.map (fun entry =>
      if entry.arrival = first.arrival then { entry with key } else entry) = tail := by
    refine (List.map_congr_left fun entry member => ?_).trans (List.map_id tail)
    rw [if_neg (List.rel_of_pairwise_cons apart (among.cons_inv.subset member)).symm]
    rfl
  have rekeyed := tracks.entries.map fun entry =>
    if entry.arrival = first.arrival then { entry with key } else entry
  rw [listed, List.map_cons, if_pos rfl, unchanged] at rekeyed
  exact {
    numbered := tracks.numbered.rekey _ _
    arrivals := tracks.arrivals
    entries := by
      have sunk := (siftDown_perm (queue.entries.set 0 { first with key } filled) 0).toList
      rw [Array.toList_set, listed, List.set_cons_zero] at sunk
      exact sunk.trans rekeyed
    heaped := tracks.heaped.set filled _ }

/-- Every operation is answered alike by the queue and the line, which it leaves in step. -/
theorem perform (tracks : line.Tracks queue) (operation : Operation κ α) :
    Answer.Agrees (PriorityQueue.perform operation queue).1 (line.perform operation).1 ∧
      (line.perform operation).2.Tracks (PriorityQueue.perform operation queue).2 := by
  cases operation with
  | enqueue key value => exact ⟨.same _, tracks.enqueue key value⟩
  | peek =>
      simp only [PriorityQueue.perform, Line.perform, first?, PriorityQueue.peek?]
      cases ranked : line.ranked with
      | nil =>
          rw [Array.getElem?_eq_none (Nat.le_of_eq (tracks.size_eq_of_ranked_eq_nil ranked))]
          exact ⟨.same _, tracks⟩
      | cons first rest =>
          obtain ⟨filled, head⟩ := tracks.head_of_ranked_eq_cons ranked
          rw [Array.getElem?_eq_getElem filled, head]
          exact ⟨.same _, tracks⟩
  | tryExtract =>
      simp only [PriorityQueue.perform, Line.perform, first?]
      cases ranked : line.ranked with
      | nil =>
          rw [tracks.extract?_eq_none ranked, Line.leave, ranked, List.take_nil, without_nil]
          exact ⟨.same _, tracks⟩
      | cons first rest =>
          obtain ⟨later, extracted, next⟩ := tracks.extract?_eq_some ranked
          rw [extracted]
          exact ⟨.same _, next⟩
  | extract =>
      simp only [PriorityQueue.perform, Line.perform, first?, PriorityQueue.extract]
      cases ranked : line.ranked with
      | nil =>
          rw [tracks.extract?_eq_none ranked]
          exact ⟨.same _, tracks⟩
      | cons first rest =>
          obtain ⟨later, extracted, next⟩ := tracks.extract?_eq_some ranked
          rw [extracted]
          exact ⟨.same _, next⟩
  | updateHead key =>
      simp only [PriorityQueue.perform, Line.perform, first?]
      cases ranked : line.ranked with
      | nil =>
          have updated : queue.updateHead key = .error .emptyQueue := by
            have empty := tracks.size_eq_of_ranked_eq_nil ranked
            rw [PriorityQueue.updateHead, dif_neg (by simp [empty])]
          rw [updated]
          exact ⟨.same _, tracks⟩
      | cons first rest =>
          obtain ⟨next, updated, later⟩ := tracks.updateHead ranked key
          rw [updated]
          exact ⟨.same _, later⟩
  | drain count =>
      obtain ⟨taken, later⟩ := tracks.take count
      simp only [PriorityQueue.perform, Line.perform, taken]
      exact ⟨.same _, later⟩
  | clear => exact ⟨.same _, Tracks.clear queue⟩
  | size =>
      simp only [PriorityQueue.perform, Line.perform, PriorityQueue.size, tracks.length_eq]
      exact ⟨.same _, tracks⟩
  | isEmpty =>
      have same : queue.isEmpty = line.waiting.isEmpty := by
        rw [PriorityQueue.isEmpty, ← Array.isEmpty_toList, tracks.entries.isEmpty_eq]
      simp only [PriorityQueue.perform, Line.perform, same]
      exact ⟨.same _, tracks⟩
  | items => exact ⟨.items tracks.items_perm, tracks⟩

/-- The queue answers as the line does, and both go on in step. -/
theorem converse (tracks : line.Tracks queue) (operations : List (Operation κ α)) :
    List.Forall₂ Answer.Agrees (PriorityQueue.converse PriorityQueue.perform operations queue).1
        (PriorityQueue.converse Line.perform operations line).1 ∧
      (PriorityQueue.converse Line.perform operations line).2.Tracks
        (PriorityQueue.converse PriorityQueue.perform operations queue).2 := by
  induction operations generalizing line queue with
  | nil => exact ⟨.nil, tracks⟩
  | cons operation rest ih =>
      obtain ⟨answer, next⟩ := tracks.perform operation
      obtain ⟨answers, last⟩ := ih next
      exact ⟨.cons answer answers, last⟩

end Line.Tracks

variable [Std.TransOrd κ]

/-- The queue of a start tracks the line of the start. -/
theorem Start.tracks (start : Start κ α) : start.line.Tracks start.queue :=
  match start with
  | .empty => .empty _
  | .withCapacity _ => .empty _
  | .ofList items => .ofList items

/-- From any start and whatever is asked, a queue answers as the line does and holds its entries.
What is left leaves by key, and under equal keys in order of arrival. -/
theorem answers_agree (start : Start κ α) (operations : List (Operation κ α)) :
    List.Forall₂ Answer.Agrees (converse perform operations start.queue).1
        (converse Line.perform operations start.line).1 ∧
      (converse perform operations start.queue).2.entries.toList.Perm
        (converse Line.perform operations start.line).2.waiting ∧
      (converse perform operations start.queue).2.drain =
        (converse Line.perform operations start.line).2.ranked.map Entry.content ∧
      (converse Line.perform operations start.line).2.ranked.Pairwise fun first second =>
        (compare first.key second.key).isLE ∧
          (compare first.key second.key = .eq → first.arrival < second.arrival) := by
  obtain ⟨answers, tracks⟩ := start.tracks.converse operations
  refine ⟨answers, tracks.entries, ?_, tracks.numbered.ranked_ascends.imp Entry.keys_of_order_eq_lt⟩
  have length := (Line.ranked_perm _).length_eq.trans tracks.length_eq.symm
  rw [drain, size, (tracks.take _).1, List.take_of_length_le (Nat.le_of_eq length)]

/-- An entry that gets the key of another is still the earlier one. -/
theorem answers_agree_rekeyed :
    List.Forall₂ Answer.Agrees
      (converse perform [.enqueue 1 "late", .updateHead 2, .drain 1]
        (Start.ofList [((2 : Int), "early")]).queue).1
      [.done, .updated (.ok ()), .drained [(2, "early")]] := by
  have agree := (answers_agree (Start.ofList [((2 : Int), "early")])
    [.enqueue 1 "late", .updateHead 2, .drain 1]).1
  have answers : (converse Line.perform [.enqueue 1 "late", .updateHead 2, .drain 1]
      (Start.ofList [((2 : Int), "early")]).line).1 =
        [.done, .updated (.ok ()), .drained [(2, "early")]] := by cbv
  rw [answers] at agree
  exact agree

end PriorityQueue

end Randomizer
