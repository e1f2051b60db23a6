import Mathlib.Data.List.Permutation
import Randomizer.Proofs.SortedList

/-!
The history of a sorted list. Every element carries the moment at which it came. The moments change
nothing about what is done, and among elements that compare equal they only rise.
-/

universe u

namespace Randomizer

namespace SortedList

variable {α : Type u} {order : α → α → Ordering}

/-- What is done with a list. -/
inductive Operation (α : Type u) where
  | insert (item : α)
  | erase (item : α)
  | eraseIndex (index : Nat)
  | extractMin
  | clear
  deriving DecidableEq, Repr

/-- What an operation answers: the index at which an element went, whether one was found, or the
element that was taken out. -/
inductive Answer (α : Type u) where
  | index (index : Nat)
  | found (found : Bool)
  | taken (item : Option α)
  | done
  deriving DecidableEq, Repr

/-- A list starts empty or with elements in it. -/
inductive Start (α : Type u) where
  | empty
  | ofList (items : List α)

def Start.list : Start α → SortedList α order
  | empty => ∅
  | ofList items => SortedList.ofList items

/-- The elements with which a list starts, in the order given. -/
def Start.elements : Start α → List α
  | empty => []
  | ofList items => items

/-- The list after an operation. -/
def perform [BEq α] (list : SortedList α order) : Operation α → SortedList α order
  | .insert item => list.insert item
  | .erase item => list.erase item
  | .eraseIndex index => list.eraseIndex index
  | .extractMin => list.eraseIndex 0
  | .clear => ∅

def answer [BEq α] (list : SortedList α order) : Operation α → Answer α
  | .insert item => .index (list.insertionIndex item)
  | .erase item => .found (list.contains item)
  | .eraseIndex index => .taken (list.get? index)
  | .extractMin => .taken (list.get? 0)
  | .clear => .done

/-- The list after a sequence of operations. -/
def run [BEq α] (operations : List (Operation α)) (list : SortedList α order) :
    SortedList α order :=
  operations.foldl perform list

/-- What a sequence of operations answers, each on the list that the ones before it left. -/
def answers [BEq α] : List (Operation α) → SortedList α order → List (Answer α)
  | [], _ => []
  | operation :: rest, list => list.answer operation :: answers rest (list.perform operation)

/-- What each operation does to the elements and what it answers. An insertion stands after all that
compares below or equal and before all that compares above. An erasure takes out the first element
that is equal and compares equal, and nothing where there is none. -/
inductive Acts [BEq α] (order : α → α → Ordering) :
    List α → Operation α → Answer α → List α → Prop
  | insert {before after : List α} {item : α}
      (upTo : ∀ other ∈ before, order other item ≠ .gt)
      (above : ∀ other ∈ after, order other item = .gt) :
      Acts order (before ++ after) (.insert item) (.index before.length) (before ++ item :: after)
  | erase {before after : List α} {found item : α}
      (first : ∀ other ∈ before, ¬ (order other item = .eq ∧ other == item))
      (same : order found item = .eq) (equal : found == item) :
      Acts order (before ++ found :: after) (.erase item) (.found true) (before ++ after)
  | keep {items : List α} {item : α}
      (none : ∀ other ∈ items, ¬ (order other item = .eq ∧ other == item)) :
      Acts order items (.erase item) (.found false) items
  | eraseIndex {before after : List α} {found : α} :
      Acts order (before ++ found :: after) (.eraseIndex before.length) (.taken (some found))
        (before ++ after)
  | past {items : List α} {index : Nat} (past : items.length ≤ index) :
      Acts order items (.eraseIndex index) (.taken none) items
  | extractMin {first : α} {rest : List α} :
      Acts order (first :: rest) .extractMin (.taken (some first)) rest
  | exhausted : Acts order [] .extractMin (.taken none) []
  | clear {items : List α} : Acts order items .clear .done []

/-- A sequence of operations with their answers, from some elements to others. -/
inductive Plays [BEq α] (order : α → α → Ordering) :
    List α → List (Operation α) → List (Answer α) → List α → Prop
  | nil {items : List α} : Plays order items [] [] items
  | cons {items middle last : List α} {operation : Operation α} {answer : Answer α}
      {operations : List (Operation α)} {answers : List (Answer α)}
      (acts : Acts order items operation answer middle)
      (plays : Plays order middle operations answers last) :
      Plays order items (operation :: operations) (answer :: answers) last

/-- What a list answers about its elements, and what the next operation does to them. -/
structure Sound [BEq α] (list : SortedList α order) : Prop where
  ascending : list.Ascending
  countUpTo : ∀ probe,
    list.countUpTo probe = list.items.countP fun item => order item probe != .gt
  countBelow : ∀ probe,
    list.countBelow probe = list.items.countP fun item => order item probe == .lt
  bisectUpTo : ∀ probe,
    bisect (fun item => order item probe != .gt) list.items 0 list.size = list.countUpTo probe
  bisectBelow : ∀ probe,
    bisect (fun item => order item probe == .lt) list.items 0 list.size = list.countBelow probe
  inserts : ∀ item, ∃ before after, list.Inserts item before after
  position : ∀ item index, list.position? item = some index ↔
    list.Matches item index ∧ ∀ earlier < index, ¬ list.Matches item earlier
  contains : (∀ first second : α, first == second → order first second = .eq) →
    ∀ item, list.contains item ↔ ∃ found ∈ list.items, found == item
  acts : ∀ operation,
    Acts order list.items operation (list.answer operation) (list.perform operation).items

/-- An element at an index parts a list into what is before it and what is after it. -/
theorem exists_split {items : List α} {index : Nat} {found : α}
    (here : items[index]? = some found) : ∃ before after,
      items = before ++ found :: after ∧ before.length = index ∧
        items.eraseIdx index = before ++ after := by
  obtain ⟨inside, rfl⟩ := List.getElem?_eq_some_iff.1 here
  refine ⟨items.take index, items.drop (index + 1), ?_, List.length_take_of_le inside.le,
    List.eraseIdx_eq_take_drop_succ items index⟩
  rw [← List.drop_eq_getElem_cons inside, List.take_append_drop]

section Removal

variable [BEq α] (list : SortedList α order)

/-- The element at an index is taken out and answered, and past the end nothing is. -/
theorem acts_eraseIndex (index : Nat) :
    Acts order list.items (.eraseIndex index) (.taken (list.get? index))
      (list.eraseIndex index).items := by
  rw [get?, SortedList.eraseIndex]
  cases here : list.items[index]? with
  | none =>
      have past := List.getElem?_eq_none_iff.1 here
      rw [List.eraseIdx_of_length_le past]
      exact .past past
  | some found =>
      obtain ⟨before, after, items, length, erased⟩ := exists_split here
      have acts : Acts order (before ++ found :: after) (.eraseIndex before.length)
        (.taken (some found)) (before ++ after) := .eraseIndex
      rw [← items, ← erased, length] at acts
      exact acts

/-- The least element is taken out and answered, unless there is none. -/
theorem acts_extractMin :
    Acts order list.items .extractMin (list.answer .extractMin)
      (list.perform .extractMin).items := by
  obtain ⟨_ | ⟨first, rest⟩⟩ := list
  · exact .exhausted
  · exact .extractMin

end Removal

namespace Ascending

variable [Std.TransCmp order] [BEq α] {list : SortedList α order} (ascending : list.Ascending)
include ascending

/-- An insertion goes after all elements up to its own and answers the index. -/
theorem acts_insert (item : α) : Acts order list.items (.insert item)
    (list.answer (.insert item)) (list.perform (.insert item)).items := by
  obtain ⟨before, after, inserts⟩ := ascending.inserts item
  have acts : Acts order (before ++ after) (.insert item) (.index before.length)
      (before ++ item :: after) := .insert inserts.upTo inserts.above
  rw [← inserts.items, ← inserts.inserted, inserts.index] at acts
  exact acts

/-- The first equal element is taken out, unless there is none. -/
theorem acts_erase (item : α) : Acts order list.items (.erase item)
    (list.answer (.erase item)) (list.perform (.erase item)).items := by
  rw [perform, answer, SortedList.erase, contains]
  cases position : list.position? item with
  | none =>
      refine .keep fun other member alike => ?_
      obtain ⟨index, here⟩ := List.mem_iff_getElem?.1 member
      have found := ascending.contains_iff_matches.2 ⟨index, other, here, alike⟩
      rw [contains, position] at found
      cases found
  | some index =>
      obtain ⟨⟨found, here, same, equal⟩, least⟩ := ascending.position?_eq_some_iff.1 position
      obtain ⟨before, after, items, length, erased⟩ := exists_split here
      have first : ∀ other ∈ before, ¬ (order other item = .eq ∧ other == item) := by
        intro other member alike
        obtain ⟨earlier, inside, there⟩ := List.mem_iff_getElem.1 member
        refine least earlier (length ▸ inside) ⟨other, ?_, alike⟩
        rw [items, List.getElem?_append_left inside, List.getElem?_eq_getElem inside, there]
      have acts : Acts order (before ++ found :: after) (.erase item) (.found true)
          (before ++ after) := .erase first same equal
      rw [← items, ← erased] at acts
      exact acts

/-- Each operation on a list in ascending order acts as it should on the elements. -/
theorem acts (operation : Operation α) :
    Acts order list.items operation (list.answer operation) (list.perform operation).items :=
  match operation with
  | .insert item => ascending.acts_insert item
  | .erase item => ascending.acts_erase item
  | .eraseIndex index => list.acts_eraseIndex index
  | .extractMin => list.acts_extractMin
  | .clear => .clear

/-- In ascending order a list is sound. -/
theorem sound : list.Sound where
  ascending := ascending
  countUpTo := ascending.countUpTo_eq
  countBelow := ascending.countBelow_eq
  bisectUpTo := ascending.bisect_upTo
  bisectBelow := ascending.bisect_below
  inserts := ascending.inserts
  position := fun _ _ => ascending.position?_eq_some_iff
  contains := fun faithful _ => ascending.contains_iff faithful
  acts := ascending.acts

omit [Std.TransCmp order] in
/-- A list stays in order without an equal element. -/
theorem erase (item : α) : (list.erase item).Ascending := by
  rw [SortedList.erase]
  split
  · exact ascending.eraseIndex _
  · exact ascending

/-- An operation keeps a list in ascending order. -/
theorem perform (operation : Operation α) : (list.perform operation).Ascending :=
  match operation with
  | .insert item => ascending.insert item
  | .erase item => ascending.erase item
  | .eraseIndex index => ascending.eraseIndex index
  | .extractMin => ascending.eraseIndex 0
  | .clear => .nil

/-- A sequence of operations acts as it should at each of its steps. -/
theorem plays (operations : List (Operation α)) :
    Plays order list.items operations (answers operations list) (run operations list).items := by
  induction operations generalizing list with
  | nil => exact .nil
  | cons operation rest ih =>
      exact .cons (ascending.acts operation) (ih (ascending.perform operation))

end Ascending

/-- An element and the moment at which it came. -/
structure Dated (α : Type u) where
  value : α
  moment : Nat
  deriving DecidableEq, Repr

namespace Dated

/-- Moments do not count in a comparison. -/
def byValue (order : α → α → Ordering) (first second : Dated α) : Ordering :=
  order first.value second.value

instance [BEq α] : BEq (Dated α) := ⟨fun first second => first.value == second.value⟩

instance [Std.TransCmp order] : Std.TransCmp (Dated.byValue order) where
  eq_swap := Std.OrientedCmp.eq_swap (α := α)
  isLE_trans := Std.TransCmp.isLE_trans (α := α)

end Dated

/-- What is done at a moment. -/
def Operation.dated (operation : Operation α) (moment : Nat) : Operation (Dated α) :=
  match operation with
  | .insert item => .insert ⟨item, moment⟩
  | .erase item => .erase ⟨item, moment⟩
  | .eraseIndex index => .eraseIndex index
  | .extractMin => .extractMin
  | .clear => .clear

/-- Each operation has its moment, one after another. -/
def dated (moment : Nat) : List (Operation α) → List (Operation (Dated α))
  | [] => []
  | operation :: rest => operation.dated moment :: dated (moment + 1) rest

/-- The elements from the start came one after another. -/
def Start.dated : Start α → Start (Dated α)
  | empty => .empty
  | ofList items => .ofList (items.zipIdx.map fun (value, moment) => ⟨value, moment⟩)

def Start.moment : Start α → Nat
  | empty => 0
  | ofList items => items.length

/-- The list without the moments. -/
def undated (list : SortedList (Dated α) (Dated.byValue order)) : SortedList α order :=
  ⟨list.items.map Dated.value⟩

section Undated

variable (list : SortedList (Dated α) (Dated.byValue order))

/-- As many elements are up to a probe with moments as without. -/
theorem countUpTo_undated (probe : Dated α) :
    list.undated.countUpTo probe.value = list.countUpTo probe := by
  rw [countUpTo, undated, List.takeWhile_map, List.length_map]
  rfl

/-- As many elements are below a probe with moments as without. -/
theorem countBelow_undated (probe : Dated α) :
    list.undated.countBelow probe.value = list.countBelow probe := by
  rw [countBelow, undated, List.takeWhile_map, List.length_map]
  rfl

/-- The moments have no part in an insertion. -/
theorem undated_insert (item : Dated α) :
    (list.insert item).undated = list.undated.insert item.value := by
  have same : (list.insert item).items.map Dated.value =
      (list.undated.insert item.value).items := by
    rw [items_insert, items_insert, List.map_append, List.map_cons, undated, List.takeWhile_map,
      List.dropWhile_map]
    rfl
  exact congrArg SortedList.mk same

/-- The moments have no part in a removal at an index. -/
theorem undated_eraseIndex (index : Nat) :
    (list.eraseIndex index).undated = list.undated.eraseIndex index := by
  refine congrArg SortedList.mk ?_
  simp only [eraseIndex, undated, List.eraseIdx_eq_take_drop_succ, List.map_append, List.map_take,
    List.map_drop]

variable [BEq α]

/-- The moments have no part in a search. -/
theorem position?_undated (item : Dated α) :
    list.undated.position? item.value = list.position? item := by
  rw [position?, position?, countUpTo_undated, countBelow_undated, undated, ← List.map_drop,
    ← List.map_take, List.findIdx?_map]
  rfl

/-- The moments have no part in the removal of an element. -/
theorem undated_erase (item : Dated α) :
    (list.erase item).undated = list.undated.erase item.value := by
  rw [erase, erase, position?_undated]
  split
  · exact list.undated_eraseIndex _
  · rfl

/-- The moments have no part in an operation. -/
theorem undated_perform (operation : Operation α) (moment : Nat) :
    (list.perform (operation.dated moment)).undated = list.undated.perform operation :=
  match operation with
  | .insert item => list.undated_insert ⟨item, moment⟩
  | .erase item => list.undated_erase ⟨item, moment⟩
  | .eraseIndex index => list.undated_eraseIndex index
  | .extractMin => list.undated_eraseIndex 0
  | .clear => rfl

/-- The moments have no part in a run. -/
theorem undated_run (operations : List (Operation α)) (moment : Nat) :
    (run (dated moment operations) list).undated = run operations list.undated := by
  induction operations generalizing list moment with
  | nil => rfl
  | cons operation rest ih =>
      have next := ih (list.perform (operation.dated moment)) (moment + 1)
      rw [undated_perform] at next
      exact next

end Undated

/-- The moments have no part in sorting. -/
theorem undated_ofList (items : List (Dated α)) :
    (ofList items : SortedList (Dated α) (Dated.byValue order)).undated =
      ofList (items.map Dated.value) :=
  congrArg SortedList.mk (List.map_mergeSort fun _ _ _ _ => rfl)

/-- The moments have no part in a start. -/
theorem undated_start (start : Start α) :
    (start.dated.list : SortedList (Dated α) (Dated.byValue order)).undated = start.list := by
  cases start with
  | empty => rfl
  | ofList items =>
      rw [Start.dated, Start.list, undated_ofList, List.map_map]
      exact congrArg ofList (List.zipIdx_map_fst 0 items)

/-- Elements that compare equal keep their order when a list is sorted. -/
theorem filter_ofList [Std.TransCmp order] (items : List α) (probe : α) :
    (ofList items : SortedList α order).items.filter (order · probe == .eq) =
      items.filter (order · probe == .eq) := by
  have level : (items.filter (order · probe == .eq)).Pairwise fun first second =>
      order first second != .gt := by
    refine List.pairwise_of_forall_mem_list fun first among second next => ?_
    have same : order first probe = .eq := beq_iff_eq.1 (List.mem_filter.1 among).2
    have equal : order second probe = .eq := beq_iff_eq.1 (List.mem_filter.1 next).2
    rw [Std.TransCmp.congr_right equal, same]
    rfl
  have kept : (items.filter (order · probe == .eq)).Sublist
      (ofList items : SortedList α order).items :=
    List.sublist_mergeSort bne_gt_trans bne_gt_total level List.filter_sublist
  have filtered := kept.filter (order · probe == .eq)
  rw [List.filter_filter] at filtered
  simp only [Bool.and_self] at filtered
  exact (filtered.eq_of_length ((items_ofList_perm items).filter _).length_eq.symm).symm

/-- A list in order. Each element came before a moment, and of those that compare equal the first
came first. -/
structure InTurn (moment : Nat) (list : SortedList (Dated α) (Dated.byValue order)) : Prop where
  ascending : list.Ascending
  earlier : ∀ item ∈ list.items, item.moment < moment
  rising : list.items.Pairwise fun first second =>
    order first.value second.value = .eq → first.moment < second.moment

theorem inTurn_empty (moment : Nat) :
    InTurn moment (∅ : SortedList (Dated α) (Dated.byValue order)) :=
  ⟨.nil, nofun, .nil⟩

namespace InTurn

variable {moment : Nat} {list : SortedList (Dated α) (Dated.byValue order)}
  (inTurn : InTurn moment list)
include inTurn

/-- What is in turn at a moment is so at the next. -/
theorem next : InTurn (moment + 1) list :=
  { inTurn with earlier := fun item member => Nat.lt_succ_of_lt (inTurn.earlier item member) }

/-- Without one of its elements a list is still in turn. -/
theorem eraseIndex (index : Nat) : InTurn moment (list.eraseIndex index) where
  ascending := inTurn.ascending.eraseIndex index
  earlier := fun item member => inTurn.earlier item (List.mem_of_mem_eraseIdx member)
  rising := inTurn.rising.sublist (List.eraseIdx_sublist _ _)

/-- Without an equal element a list is still in turn. -/
theorem erase [BEq α] (item : Dated α) : InTurn moment (list.erase item) := by
  rw [SortedList.erase]
  split
  · exact inTurn.eraseIndex _
  · exact inTurn

variable [Std.TransCmp order]

/-- What comes now stands after all that compares equal to it. -/
theorem insert (item : α) : InTurn (moment + 1) (list.insert ⟨item, moment⟩) := by
  obtain ⟨before, after, inserts⟩ := inTurn.ascending.inserts ⟨item, moment⟩
  have earlier := inTurn.earlier
  have rising := inTurn.rising
  rw [inserts.items] at earlier rising
  refine ⟨inTurn.ascending.insert _, ?_, ?_⟩
  · rw [inserts.inserted]
    intro other member
    rcases List.mem_append.1 member with first | later
    · exact Nat.lt_succ_of_lt (earlier other (List.mem_append_left _ first))
    rcases List.mem_cons.1 later with rfl | last
    · exact Nat.lt_succ_self moment
    · exact Nat.lt_succ_of_lt (earlier other (List.mem_append_right _ last))
  · rw [inserts.inserted]
    obtain ⟨first, last, across⟩ := List.pairwise_append.1 rising
    refine List.pairwise_append.2 ⟨first, List.pairwise_cons.2 ⟨?_, last⟩, ?_⟩
    · intro other member same
      have above : order other.value item = .gt := inserts.above other member
      rw [Std.OrientedCmp.eq_comm.1 same] at above
      cases above
    · intro other member added among
      rcases List.mem_cons.1 among with rfl | later
      · exact fun _ => earlier other (List.mem_append_left _ member)
      · exact across other member added later

/-- An operation at a moment leaves a list in turn for the next. -/
theorem perform [BEq α] (operation : Operation α) :
    InTurn (moment + 1) (list.perform (operation.dated moment)) :=
  match operation with
  | .insert item => inTurn.insert item
  | .erase item => (inTurn.erase ⟨item, moment⟩).next
  | .eraseIndex index => (inTurn.eraseIndex index).next
  | .extractMin => (inTurn.eraseIndex 0).next
  | .clear => inTurn_empty _

/-- A run leaves a list in turn for the moment after it. -/
theorem run [BEq α] (operations : List (Operation α)) :
    ∃ last, InTurn last (run (dated moment operations) list) := by
  induction operations generalizing list moment with
  | nil => exact ⟨moment, inTurn⟩
  | cons operation rest ih => exact ih (inTurn.perform operation)

end InTurn

/-- A list in order is in order without the moments. -/
theorem ascending_undated {list : SortedList (Dated α) (Dated.byValue order)}
    (ascending : list.Ascending) : list.undated.Ascending :=
  List.pairwise_map.2 ascending

/-- Elements that are counted have rising moments. -/
theorem pairwise_zipIdx (items : List α) :
    (items.zipIdx.map fun (value, moment) => (⟨value, moment⟩ : Dated α)).Pairwise
      fun first second => first.moment < second.moment := by
  have counted : (List.range' 0 items.length).Pairwise (· < ·) := List.pairwise_lt_range'
  rw [← List.zipIdx_map_snd 0 items] at counted
  exact List.pairwise_map.2 (List.pairwise_map.1 counted)

/-- A start holds its elements. -/
theorem Start.perm (start : Start α) :
    (start.list : SortedList α order).items.Perm start.elements :=
  match start with
  | .empty => .rfl
  | .ofList items => items_ofList_perm items

variable [Std.TransCmp order]

/-- A start is in ascending order. -/
theorem Start.ascending (start : Start α) : (start.list : SortedList α order).Ascending :=
  match start with
  | .empty => .nil
  | .ofList items => ascending_ofList items

/-- A stable sort keeps what compares equal in turn. -/
theorem inTurn_start (start : Start α) :
    InTurn start.moment (start.dated.list : SortedList (Dated α) (Dated.byValue order)) := by
  cases start with
  | empty => exact inTurn_empty 0
  | ofList items =>
      let came := items.zipIdx.map fun (value, moment) => (⟨value, moment⟩ : Dated α)
      refine ⟨ascending_ofList came, fun item member => ?_,
        List.pairwise_iff_forall_sublist.2 fun {first second} pair same => ?_⟩
      · obtain ⟨source, among, rfl⟩ := List.mem_map.1 ((items_ofList_perm came).subset member)
        exact List.snd_lt_of_mem_zipIdx among
      · have level : [first, second].filter (Dated.byValue order · second == .eq) =
            [first, second] := by
          have alike : Dated.byValue order first second = .eq := same
          simp [alike, Std.ReflCmp.compare_self]
        have among := pair.filter (Dated.byValue order · second == .eq)
        rw [level, Start.dated, Start.list, filter_ofList] at among
        have order := (pairwise_zipIdx items).sublist (among.trans List.filter_sublist)
        exact List.rel_of_pairwise_cons order (List.mem_singleton_self second)

/-- From any start, which holds just the elements given, each operation acts on the elements and
answers as it should, and so does whatever comes next. Done with elements that carry the moment at
which they came, the same leads to the same elements, and among those that compare equal the moments
rise. -/
theorem run_sound [BEq α] (start : Start α) (operations : List (Operation α)) :
    (start.list : SortedList α order).items.Perm start.elements ∧
      Plays order (start.list : SortedList α order).items operations
        (answers operations (start.list : SortedList α order))
        (run operations start.list : SortedList α order).items ∧
      (run operations start.list : SortedList α order).Sound ∧
      (run (dated start.moment operations) start.dated.list :
        SortedList (Dated α) (Dated.byValue order)).undated = run operations start.list ∧
      (run (dated start.moment operations) start.dated.list :
        SortedList (Dated α) (Dated.byValue order)).items.Pairwise fun first second =>
          order first.value second.value = .eq → first.moment < second.moment := by
  obtain ⟨last, inTurn⟩ := (inTurn_start start : InTurn start.moment
    (start.dated.list : SortedList (Dated α) (Dated.byValue order))).run operations
  have same := undated_run (start.dated.list : SortedList (Dated α) (Dated.byValue order))
    operations start.moment
  rw [undated_start] at same
  have ascending := ascending_undated inTurn.ascending
  rw [same] at ascending
  exact ⟨start.perm, start.ascending.plays operations, ascending.sound, same, inTurn.rising⟩

/-- A list of three goes through each kind of removal. -/
theorem run_sound_erased :
    let start : Start (Nat × Char) := .ofList [(2, 'c'), (1, 'b'), (2, 'a')]
    let operations : List (Operation (Nat × Char)) :=
      [.insert (1, 'd'), .eraseIndex 0, .erase (2, 'a'), .erase (2, 'e'), .extractMin,
        .eraseIndex 4]
    let list : SortedList (Nat × Char) (compareOn Prod.fst) := start.list
    (run operations list).Sound ∧
      list.items = [(1, 'b'), (2, 'c'), (2, 'a')] ∧
      answers operations list = [.index 1, .taken (some (1, 'b')), .found true, .found false,
        .taken (some (1, 'd')), .taken none] ∧
      (run operations list).items = [(2, 'c')] :=
  ⟨(run_sound _ _).2.2.1, by cbv, by cbv, by cbv⟩

end SortedList

end Randomizer
