import Randomizer.Logic.Manager
import Randomizer.Placement.Participant

/-!
A world is a manager with the items to place and the locations to place them at.
-/

namespace Randomizer

structure World where
  manager : Manager
  items : List WorldItem
  locations : List WorldLocation

namespace World

def findItem (manager : Manager) (name : String) : Except Error WorldItem :=
  match manager.items.get? name with
  | some item => .ok (.ofItem item)
  | none => .error (.unknownItem name)

def findLocation (manager : Manager) (name : String) : Except Error WorldLocation :=
  match manager.definitions.get? name with
  | some definition => .ok (.ofDefinition definition)
  | none => .error (.unknownDefinition name)

/-- The items and locations of a manager with the given names. -/
def ofManager (manager : Manager) (items locations : List String) : Except Error World := do
  let items ← items.mapM (findItem manager)
  let locations ← locations.mapM (findLocation manager)
  return ⟨manager, items, locations⟩

/-- The world with a further cost at every location of a name. -/
def addCost (world : World) (name : String) (cost : Cost) : World :=
  { world with locations := world.locations.map fun location =>
      if location.name = name then location.addCost cost else location }

end World

end Randomizer
