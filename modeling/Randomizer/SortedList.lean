/-!
Lists kept in ascending order under a comparison. Elements that compare equal stay in the order in
which they came, and ranks count the elements before a probe.
-/

universe u

namespace Randomizer

structure SortedList (α : Type u) (order : α → α → Ordering) where
  items : List α
  deriving DecidableEq

namespace SortedList

variable {α : Type u} {order : α → α → Ordering}

def empty : SortedList α order := ⟨[]⟩

instance : EmptyCollection (SortedList α order) := ⟨empty⟩

instance : Inhabited (SortedList α order) := ⟨empty⟩

/-- A stable sort of the elements. -/
def ofList (items : List α) : SortedList α order :=
  ⟨items.mergeSort fun first second => order first second != .gt⟩

def size (list : SortedList α order) : Nat := list.items.length

def isEmpty (list : SortedList α order) : Bool := list.items.isEmpty

def get? (list : SortedList α order) (index : Nat) : Option α := list.items[index]?

def min? (list : SortedList α order) : Option α := list.items.head?

/-- How many elements come before the probe. -/
def countBelow (list : SortedList α order) (probe : α) : Nat :=
  (list.items.takeWhile fun item => order item probe == .lt).length

/-- How many elements come before the probe or compare equal to it. -/
def countUpTo (list : SortedList α order) (probe : α) : Nat :=
  (list.items.takeWhile fun item => order item probe != .gt).length

/-- The index at which an element goes, after all that compare equal to it. -/
def insertionIndex (list : SortedList α order) (item : α) : Nat := list.countUpTo item

def insert (list : SortedList α order) (item : α) : SortedList α order :=
  ⟨list.items.insertIdx (list.insertionIndex item) item⟩

/-- The list without the element at an index, or the same list past the end. -/
def eraseIndex (list : SortedList α order) (index : Nat) : SortedList α order :=
  ⟨list.items.eraseIdx index⟩

/-- The first index of an equal element among those that compare equal. -/
def position? [BEq α] (list : SortedList α order) (item : α) : Option Nat :=
  let start := list.countBelow item
  let candidates := (list.items.drop start).take (list.countUpTo item - start)
  (candidates.findIdx? (· == item)).map (start + ·)

def contains [BEq α] (list : SortedList α order) (item : α) : Bool :=
  (list.position? item).isSome

/-- One equal element is taken out, if there is one. -/
def erase [BEq α] (list : SortedList α order) (item : α) : SortedList α order :=
  match list.position? item with
  | some index => list.eraseIndex index
  | none => list

end SortedList

end Randomizer
