import Randomizer.Logic.Template.Json

/-!
The documents that logic is read from: lists of terms, records, macros and item templates.
-/

namespace Randomizer

/-- A name with its logic as text. -/
structure LogicRecord where
  name : String
  logic : String
  deriving DecidableEq, Repr

def LogicRecord.ofJson? (json : Json) : Option LogicRecord := do
  let fields ← json.fields? ["name", "logic"]
  let name ← Json.required? fields "name" Json.string?
  let logic ← Json.required? fields "logic" Json.string?
  return ⟨name, logic⟩

/-- A gate of a scene with its logic as text; the name may be empty. -/
structure TransitionRecord where
  name : String
  scene : String
  gate : String
  logic : String
  passage : Passage
  deriving DecidableEq, Repr

/-- A passage is written by its name, alone or as the only key of an object that holds null. -/
def Passage.ofJson? : Json → Option Passage
  | .string name => Passage.ofName? name
  | .object members =>
    match members.getLast? with
    | some (name, .null) =>
      if members.all fun member => member.1 == name then Passage.ofName? name else none
    | _ => none
  | _ => none

namespace TransitionRecord

/-- The given name, or the scene with the gate in brackets. -/
def fullName (record : TransitionRecord) : String :=
  if record.name.isEmpty then record.scene ++ "[" ++ record.gate ++ "]" else record.name

def toJson (record : TransitionRecord) : Json :=
  .object ((if record.name.isEmpty then [] else [("name", .string record.name)]) ++
    [("scene", .string record.scene), ("gate", .string record.gate),
      ("logic", .string record.logic), ("oneWayFlag", .string record.passage.name)])

def ofJson? (json : Json) : Option TransitionRecord := do
  let fields ← json.fields? ["name", "scene", "gate", "logic", "oneWayFlag"]
  let name ← Json.optional? fields "name" Json.string? ""
  let scene ← Json.required? fields "scene" Json.string?
  let gate ← Json.required? fields "gate" Json.string?
  let logic ← Json.required? fields "logic" Json.string?
  let passage ← Json.optional? fields "oneWayFlag" Passage.ofJson? .twoWay
  return ⟨name, scene, gate, logic, passage⟩

end TransitionRecord

inductive DocumentKind where
  | terms
  | waypoints
  | transitions
  | macros
  | items
  | locations
  deriving DecidableEq, Repr

def DocumentKind.name : DocumentKind → String
  | .terms => "terms"
  | .waypoints => "waypoints"
  | .transitions => "transitions"
  | .macros => "macros"
  | .items => "items"
  | .locations => "locations"

def DocumentKind.ofName? (name : String) : Option DocumentKind :=
  [DocumentKind.terms, .waypoints, .transitions, .macros, .items, .locations].find? (·.name = name)

inductive Document where
  | terms (names : List String)
  | waypoints (records : List LogicRecord)
  | transitions (records : List TransitionRecord)
  /-- The macros come in name order. -/
  | macros (batch : NameMap String)
  | items (templates : List ItemTemplate)
  | locations (records : List LogicRecord)

namespace Document

/-- The texts under the keys of an object, if the value that counts for each key is a text. -/
def texts? : Json → Option (NameMap String)
  | .object members =>
    let values := NameMap.ofList members
    let texts := values.entries.mapM fun (entry : String × Json) =>
      entry.2.string?.map fun text => (entry.1, text)
    texts.map NameMap.ofList
  | _ => none

/-- A document of a kind, read as a whole. -/
def ofJson? (kind : DocumentKind) (json : Json) : Option Document :=
  match kind with
  | .terms => (json.all? Json.string?).map terms
  | .waypoints => (json.all? LogicRecord.ofJson?).map waypoints
  | .transitions => (json.all? TransitionRecord.ofJson?).map transitions
  | .macros => (texts? json).map macros
  | .items => (json.all? ItemTemplate.ofJson?).map items
  | .locations => (json.all? LogicRecord.ofJson?).map locations

end Document

end Randomizer
