import Randomizer.Error

/-!
A queue that gives up its least key first. Equal keys leave in the order in which they arrived;
arrival numbers make that order strict. The entries form a binary heap.
-/

universe u v

namespace Randomizer

namespace PriorityQueue

structure Entry (κ : Type u) (α : Type v) where
  key : κ
  arrival : Nat
  value : α
  deriving DecidableEq, Repr

variable {κ : Type u} {α : Type v} [Ord κ]

/-- The order of leaving: by key, then by arrival. -/
def Entry.precedes (first second : Entry κ α) : Bool :=
  match compare first.key second.key with
  | .lt => true
  | .gt => false
  | .eq => first.arrival < second.arrival

/-- An entry rises while it precedes its parent. -/
def siftUp (entries : Array (Entry κ α)) (index : Nat) : Array (Entry κ α) :=
  if inside : 0 < index ∧ index < entries.size then
    let parent := (index - 1) / 2
    have above : parent < entries.size := by omega
    if entries[index].precedes entries[parent] then
      siftUp (entries.swap index parent inside.2 above) parent
    else entries
  else entries
termination_by index
decreasing_by omega

/-- The child that precedes the other; the left one unless the right one is strictly first. -/
def leastChild (entries : Array (Entry κ α)) (index : Nat)
    (left : 2 * index + 1 < entries.size) : Nat :=
  if right : 2 * index + 2 < entries.size then
    if entries[2 * index + 2].precedes entries[2 * index + 1] then 2 * index + 2
    else 2 * index + 1
  else 2 * index + 1

theorem leastChild_bounds (entries : Array (Entry κ α)) (index : Nat)
    (left : 2 * index + 1 < entries.size) :
    index < leastChild entries index left ∧ leastChild entries index left < entries.size := by
  unfold leastChild
  split
  · split <;> omega
  · omega

/-- An entry sinks while its least child precedes it. -/
def siftDown (entries : Array (Entry κ α)) (index : Nat) : Array (Entry κ α) :=
  if left : 2 * index + 1 < entries.size then
    have here : index < entries.size := by omega
    let child := leastChild entries index left
    have below : child < entries.size := (leastChild_bounds entries index left).2
    if entries[child].precedes entries[index] then
      siftDown (entries.swap child index below here) child
    else entries
  else entries
termination_by entries.size - index
decreasing_by
  have deeper := (leastChild_bounds entries index left).1
  simp only [Array.size_swap]
  omega

end PriorityQueue

/-- The arrivals counted so far number the next entry; the capacity only grows. -/
structure PriorityQueue (κ : Type u) (α : Type v) where
  entries : Array (PriorityQueue.Entry κ α)
  arrivals : Nat
  capacity : Nat
  deriving DecidableEq, Repr

namespace PriorityQueue

variable {κ : Type u} {α : Type v}

def defaultCapacity : Nat := 4

def withCapacity (capacity : Nat) : PriorityQueue κ α := ⟨#[], 0, capacity⟩

def empty : PriorityQueue κ α := withCapacity defaultCapacity

instance : EmptyCollection (PriorityQueue κ α) := ⟨empty⟩

instance : Inhabited (PriorityQueue κ α) := ⟨empty⟩

def size (queue : PriorityQueue κ α) : Nat := queue.entries.size

def isEmpty (queue : PriorityQueue κ α) : Bool := queue.entries.isEmpty

/-- The entries in heap order. -/
def items (queue : PriorityQueue κ α) : List (κ × α) :=
  queue.entries.toList.map fun entry => (entry.key, entry.value)

/-- Room for a number of entries, at least doubled when there is too little. -/
def capacityFor (capacity needed : Nat) : Nat :=
  if capacity < needed then max needed (2 * capacity) else capacity

/-- Everything is dropped and arrivals count from zero again. -/
def clear (queue : PriorityQueue κ α) : PriorityQueue κ α :=
  { queue with entries := #[], arrivals := 0 }

def peek? (queue : PriorityQueue κ α) : Option (κ × α) :=
  queue.entries[0]?.map fun entry => (entry.key, entry.value)

variable [Ord κ]

def enqueue (queue : PriorityQueue κ α) (key : κ) (value : α) : PriorityQueue κ α where
  entries := siftUp (queue.entries.push ⟨key, queue.arrivals, value⟩) queue.entries.size
  arrivals := queue.arrivals + 1
  capacity := capacityFor queue.capacity (queue.entries.size + 1)

def enqueueAll (queue : PriorityQueue κ α) (items : List (κ × α)) : PriorityQueue κ α :=
  items.foldl (fun built item => built.enqueue item.1 item.2) queue

def ofList (items : List (κ × α)) : PriorityQueue κ α :=
  (withCapacity (max items.length defaultCapacity)).enqueueAll items

/-- The least entry and the queue without it. -/
def extract? (queue : PriorityQueue κ α) : Option ((κ × α) × PriorityQueue κ α) :=
  if filled : 0 < queue.entries.size then
    let least := queue.entries[0]
    let swapped := queue.entries.swap 0 (queue.entries.size - 1) filled (by omega)
    some ((least.key, least.value), { queue with entries := siftDown swapped.pop 0 })
  else none

def extract (queue : PriorityQueue κ α) : Except Error ((κ × α) × PriorityQueue κ α) :=
  match queue.extract? with
  | some extracted => .ok extracted
  | none => .error .emptyQueue

/-- The least entry gets a new key and keeps its arrival. -/
def updateHead (queue : PriorityQueue κ α) (key : κ) : Except Error (PriorityQueue κ α) :=
  if filled : 0 < queue.entries.size then
    let head := { queue.entries[0] with key }
    .ok { queue with entries := siftDown (queue.entries.set 0 head filled) 0 }
  else .error .emptyQueue

/-- Up to a number of entries in the order of leaving, and the queue that remains. -/
def take (queue : PriorityQueue κ α) : Nat → List (κ × α) × PriorityQueue κ α
  | 0 => ([], queue)
  | count + 1 =>
    match queue.extract? with
    | none => ([], queue)
    | some (least, rest) =>
      let (others, remaining) := rest.take count
      (least :: others, remaining)

def drain (queue : PriorityQueue κ α) : List (κ × α) := (queue.take queue.size).1

end PriorityQueue

end Randomizer
