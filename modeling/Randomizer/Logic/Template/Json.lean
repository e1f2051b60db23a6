import Randomizer.Logic.Template

/-!
Item templates as JSON. Branches that are absent are not written, and may be null when read.
-/

namespace Randomizer

namespace NamedAmount

def toJson (named : NamedAmount) : Json :=
  .object [("term", .string named.term), ("value", .integer named.amount)]

def ofJson? (json : Json) : Option NamedAmount := do
  let fields ← json.fields? ["term", "value"]
  let term ← Json.required? fields "term" Json.string?
  let amount ← Json.required? fields "value" Json.amount?
  return ⟨term, amount⟩

end NamedAmount

namespace ItemTemplate

/-- The names of the types of items. -/
def kinds : List String := ["Bool", "Single", "Multi", "Capped", "Branched", "Empty"]

def toJson : ItemTemplate → Json
  | bool name term =>
    .object [("type", .string "Bool"), ("name", .string name), ("term", .string term)]
  | single name effect =>
    .object [("type", .string "Single"), ("name", .string name), ("effect", effect.toJson)]
  | multi name effects =>
    .object [("type", .string "Multi"), ("name", .string name),
      ("effects", .array (effects.map NamedAmount.toJson))]
  | capped name effects cap =>
    .object [("type", .string "Capped"), ("name", .string name),
      ("effects", .array (effects.map NamedAmount.toJson)), ("cap", cap.toJson)]
  | branched name guard whenTrue whenFalse =>
    let ofTrue := match whenTrue with
      | some template => [("trueItem", template.toJson)]
      | none => []
    let ofFalse := match whenFalse with
      | some template => [("falseItem", template.toJson)]
      | none => []
    .object ([("type", .string "Branched"), ("name", .string name), ("logic", .string guard)] ++
      ofTrue ++ ofFalse)
  | empty name => .object [("type", .string "Empty"), ("name", .string name)]

/-- The type of an item; in a branch it may also be the position in the list of types. -/
def kind? (inBranch : Bool) : Json → Option String
  | .string kind => some kind
  | .integer position => if inBranch && 0 ≤ position then kinds[position.toNat]? else none
  | _ => none

/-- The template that a value writes, at the top or in a branch of another one. -/
def read? (inBranch : Bool) (json : Json) : Option ItemTemplate :=
  match tagged : json.tagged? "type" with
  | none => none
  | some (tag, body) =>
    match kind? inBranch tag with
    | some "Bool" => do
      let fields ← body.fields? ["name", "term"]
      let name ← Json.required? fields "name" Json.string?
      let term ← Json.required? fields "term" Json.string?
      return bool name term
    | some "Single" => do
      let fields ← body.fields? ["name", "effect"]
      let name ← Json.required? fields "name" Json.string?
      let effect ← Json.required? fields "effect" NamedAmount.ofJson?
      return single name effect
    | some "Multi" => do
      let fields ← body.fields? ["name", "effects"]
      let name ← Json.required? fields "name" Json.string?
      let effects ← Json.required? fields "effects" (Json.all? NamedAmount.ofJson?)
      return multi name effects
    | some "Capped" => do
      let fields ← body.fields? ["name", "effects", "cap"]
      let name ← Json.required? fields "name" Json.string?
      let effects ← Json.required? fields "effects" (Json.all? NamedAmount.ofJson?)
      let cap ← Json.required? fields "cap" NamedAmount.ofJson?
      return capped name effects cap
    | some "Branched" =>
      match record : body.fields? ["name", "logic", "trueItem", "falseItem"] with
      | none => none
      | some fields => do
        let branch (key : String) : Option (Option ItemTemplate) :=
          match found : Json.member? key fields with
          | none | some .null => some none
          | some value =>
            have : sizeOf value < sizeOf json :=
              Nat.lt_of_lt_of_le (Json.sizeOf_lt_of_fields? record (Json.mem_of_member? found))
                (Json.sizeOf_le_of_tagged? tagged)
            (read? true value).map some
        let name ← Json.required? fields "name" Json.string?
        let guard ← Json.required? fields "logic" Json.string?
        let whenTrue ← branch "trueItem"
        let whenFalse ← branch "falseItem"
        return branched name guard whenTrue whenFalse
    | some "Empty" => do
      let fields ← body.fields? ["name"]
      let name ← Json.required? fields "name" Json.string?
      return empty name
    | _ => none
termination_by sizeOf json

def ofJson? (json : Json) : Option ItemTemplate := read? false json

end ItemTemplate

end Randomizer
