import Randomizer.Logic.Builder
import Randomizer.World.Basic

/-!
Small worlds that are fully specified.
-/

namespace Randomizer

namespace Scenario

def addLocations (builder : Builder) (records : List LogicRecord) : Except Error Builder :=
  records.foldlM Builder.addLocation builder

/-- A key with its own term, and the location that it opens. -/
def addKey (builder : Builder) (number : Nat) : Except Error Builder :=
  let key := "Key" ++ toString number
  let withTerm := builder.addTerm key
  let item := Item.bool key (withTerm.terms.idAfterAdd key)
  (withTerm.addPrefab item).addLocation ⟨"Loc" ++ toString number, key⟩

/-- One free location, and a chain of locations that need one key each. -/
def keyChain (count : Nat) : Except Error World := do
  let numbers := (List.range count).map (· + 1)
  let builder ← Builder.empty.addLocation ⟨"Start", "TRUE"⟩
  let builder ← numbers.foldlM addKey builder
  let manager ← builder.build
  World.ofManager manager (numbers.map fun number => "Key" ++ toString number)
    ("Start" :: numbers.map fun number => "Loc" ++ toString number)

/-- Three counted keys, two free locations, doors at one and two keys, and a vault that needs more
keys than there are. -/
def keyDoor : Except Error World := do
  let builder := Builder.empty.addTerm "Keys"
  let keys := builder.terms.idAfterAdd "Keys"
  let builder := ["Key1", "Key2", "Key3"].foldl
    (fun built name => built.addPrefab (.single name ⟨keys, 1⟩)) builder
  let builder ← addLocations builder
    [⟨"Start1", "TRUE"⟩, ⟨"Start2", "ANY"⟩, ⟨"Door1", "Keys>0"⟩, ⟨"Door2", "Keys>1"⟩,
      ⟨"Vault", "Keys>3"⟩]
  let manager ← builder.build
  World.ofManager manager ["Key1", "Key2", "Key3"]
    ["Start1", "Start2", "Door1", "Door2", "Vault"]

/-- A builder that has ingested documents in order. -/
def ingestAll (documents : List Document) : Except Error Builder :=
  match (documents.forM Builder.ingest).run ∅ with
  | .ok _ builder => .ok builder
  | .error error _ => .error error

/-- Two ways up a ledge, a shop behind it that asks for riches, and a summit that needs both
ways. -/
def ledgeAndShop : Except Error World := do
  let builder ← ingestAll [
    .terms ["Dash", "Claw", "Geo"],
    .macros (.ofList [("MOBILITY", "Dash | Claw"), ("RICH", "Geo>99")]),
    .waypoints [⟨"Upper_Ledge", "MOBILITY"⟩],
    .items [.bool "Mothwing_Cloak" "Dash", .bool "Mantis_Claw" "Claw",
      .single "Geo_Chest" ⟨"Geo", 100⟩, .empty "Nothing"],
    .locations [⟨"King's_Pass", "TRUE"⟩, ⟨"Crossroads", "ANY"⟩, ⟨"Dirtmouth", "TRUE"⟩,
      ⟨"Fountain", "TRUE"⟩, ⟨"Ledge_Chest", "Upper_Ledge"⟩,
      ⟨"Shop", "*Ledge_Chest + RICH"⟩, ⟨"Summit", "Dash + Claw"⟩]]
  let manager ← builder.build
  World.ofManager manager ["Mothwing_Cloak", "Mantis_Claw", "Geo_Chest", "Nothing"]
    ["King's_Pass", "Crossroads", "Dirtmouth", "Fountain", "Ledge_Chest", "Shop", "Summit"]

/-- The transitions of a manager in name order, with priorities that rise by a tenth. -/
def rankedTransitions (manager : Manager) : List WorldTransition :=
  manager.transitions.values.zipIdx.map fun (transition, rank) =>
    { WorldTransition.ofTransition transition with
      priority := Binary32.ofNat rank * ⟨0x3DCCCCCD⟩ }

/-- Two scenes with two gates each; those of the cave need a lantern. -/
def townAndCave : Except Error (Manager × List WorldTransition) := do
  let builder ← ingestAll [
    .terms ["Lantern"],
    .transitions [⟨"", "Town", "left1", "TRUE", .twoWay⟩, ⟨"", "Town", "right1", "TRUE", .twoWay⟩,
      ⟨"", "Cave", "left1", "Lantern", .twoWay⟩,
      ⟨"", "Cave", "right1", "Lantern", .oneWayOut⟩]]
  let manager ← builder.build
  return (manager, rankedTransitions manager)

end Scenario

end Randomizer
