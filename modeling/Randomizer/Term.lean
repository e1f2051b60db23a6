/-!
Terms are the named quantities of progression. A table numbers them in the order in which they
were first mentioned, so an id is a position.
-/

namespace Randomizer

structure TermId where
  index : Nat
  deriving DecidableEq, Repr

/-- A term with an amount: what an effect adds, or the threshold that a cap or cost asks for. -/
structure TermAmount where
  term : TermId
  amount : Int
  deriving DecidableEq, Repr

/-- The value that each term has at one moment. -/
abbrev Reading := TermId → Int

/-- Each name has one id, the position at which it stands. -/
structure TermTable where
  names : List String
  nodup : names.Nodup

namespace TermTable

def empty : TermTable := ⟨[], List.nodup_nil⟩

instance : EmptyCollection TermTable := ⟨empty⟩

instance : Inhabited TermTable := ⟨empty⟩

@[ext] theorem ext {first second : TermTable} (names : first.names = second.names) :
    first = second := by
  cases first
  cases second
  cases names
  rfl

def size (table : TermTable) : Nat := table.names.length

def idOf? (table : TermTable) (name : String) : Option TermId :=
  (table.names.idxOf? name).map TermId.mk

def nameOf? (table : TermTable) (id : TermId) : Option String := table.names[id.index]?

def contains (table : TermTable) (name : String) : Bool := table.names.contains name

/-- The name of a term, or the digits of an id that the table does not hold. -/
def label (table : TermTable) (id : TermId) : String :=
  (table.nameOf? id).getD (toString id.index)

/-- A name that is new goes to the end, so no id ever moves. -/
def add (table : TermTable) (name : String) : TermTable :=
  if known : name ∈ table.names then table
  else ⟨table.names ++ [name], by
    rw [List.nodup_append]
    refine ⟨table.nodup, List.pairwise_singleton _ _, fun first left second right => ?_⟩
    rw [List.mem_singleton] at right
    exact fun equal => known (right ▸ equal ▸ left)⟩

def addAll (table : TermTable) (names : List String) : TermTable := names.foldl add table

/-- The id that a name has in the table with the name added. -/
def idAfterAdd (table : TermTable) (name : String) : TermId := ⟨table.names.idxOf name⟩

theorem mem_add (table : TermTable) (name : String) : name ∈ (table.add name).names := by
  unfold add
  split <;> simp_all

theorem names_add (table : TermTable) (name : String) :
    table.names <+: (table.add name).names := by
  unfold add
  split
  · exact List.prefix_rfl
  · exact List.prefix_append _ _

theorem nameOf?_eq_some_iff {table : TermTable} {id : TermId} {name : String} :
    table.nameOf? id = some name ↔ table.idOf? name = some id := by
  unfold nameOf? idOf?
  rw [Option.map_eq_some_iff, List.getElem?_eq_some_iff]
  constructor
  · rintro ⟨bound, rfl⟩
    refine ⟨id.index, ?_, rfl⟩
    rw [List.idxOf?_eq_some_iff]
    refine ⟨bound, by simp, fun earlier before => ?_⟩
    have distinct := (List.pairwise_iff_getElem.1 table.nodup) earlier id.index
      (by omega) bound before
    simpa using distinct
  · rintro ⟨position, found, rfl⟩
    rw [List.idxOf?_eq_some_iff] at found
    obtain ⟨bound, here, _⟩ := found
    exact ⟨bound, by simpa using here⟩

end TermTable

end Randomizer
