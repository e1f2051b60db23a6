import Randomizer.Amount

/-!
Values of JSON documents. Whole numbers of 64 bits are told apart from all other numbers, because
only the former are amounts.
-/

namespace Randomizer

inductive Json where
  | null
  | bool (value : Bool)
  | integer (value : Int)
  /-- The number of the digits times a power of ten, with its sign apart. -/
  | decimal (negative : Bool) (digits : Nat) (exponent : Int)
  | string (value : String)
  | array (items : List Json)
  | object (members : List (String × Json))

namespace Json

instance : Inhabited Json := ⟨null⟩

/-- The value under a key; of several the last one counts. -/
def member? (key : String) (members : List (String × Json)) : Option Json :=
  members.reverse.lookup key

theorem mem_of_member? {key : String} {members : List (String × Json)} {value : Json}
    (found : member? key members = some value) : (key, value) ∈ members := by
  obtain ⟨before, after, split, _⟩ := List.lookup_eq_some_iff.1 found
  rw [← List.mem_reverse, split]
  exact List.mem_append_right _ List.mem_cons_self

def string? : Json → Option String
  | string value => some value
  | _ => none

def array? : Json → Option (List Json)
  | array items => some items
  | _ => none

/-- A whole number in the range of amounts. -/
def amount? : Json → Option Int
  | integer value => if Amount.InRange value then some value else none
  | _ => none

/-- The values of a record's fields, by name. A record may also be written as the array of its
fields in order, of which the last ones may be left out. -/
def fields? (names : List String) : Json → Option (List (String × Json))
  | object members => some members
  | array items => if items.length ≤ names.length then some (names.zip items) else none
  | _ => none

/-- What tells a record apart from others of its family, and the record itself: the value under a
key, or the first item of an array and the array of the others. -/
def tagged? (key : String) : Json → Option (Json × Json)
  | object members => (member? key members).map fun tag => (tag, object members)
  | array (tag :: rest) => some (tag, array rest)
  | _ => none

theorem sizeOf_lt_of_fields? {names : List String} {json : Json}
    {fields : List (String × Json)} (read : json.fields? names = some fields) {key : String}
    {value : Json} (member : (key, value) ∈ fields) : sizeOf value < sizeOf json := by
  unfold fields? at read
  split at read
  · cases read
    have smaller := List.sizeOf_lt_of_mem member
    simp only [Prod.mk.sizeOf_spec, object.sizeOf_spec] at smaller ⊢
    omega
  · split at read
    · cases read
      have smaller := List.sizeOf_lt_of_mem (List.of_mem_zip member).2
      simp only [array.sizeOf_spec]
      omega
    · cases read
  · cases read

theorem sizeOf_le_of_tagged? {key : String} {json tag body : Json}
    (read : json.tagged? key = some (tag, body)) : sizeOf body ≤ sizeOf json := by
  unfold tagged? at read
  split at read
  · obtain ⟨found, _, equal⟩ := Option.map_eq_some_iff.1 read
    cases equal
    exact Nat.le_refl _
  · cases read
    simp only [array.sizeOf_spec, List.cons.sizeOf_spec]
    omega
  · cases read

/-- A field that has to be there. -/
def required? {α : Type} (fields : List (String × Json)) (key : String)
    (read : Json → Option α) : Option α :=
  (member? key fields).bind read

/-- A field that may be left out. -/
def optional? {α : Type} (fields : List (String × Json)) (key : String)
    (read : Json → Option α) (otherwise : α) : Option α :=
  match member? key fields with
  | some value => read value
  | none => some otherwise

/-- Every item of an array, if all of them can be read. -/
def all? {α : Type} (read : Json → Option α) (json : Json) : Option (List α) :=
  json.array?.bind fun items => items.mapM read

end Json

end Randomizer
