import Randomizer.Binary32.Arithmetic
import Randomizer.Logic.Item

/-!
What takes part in placement: anything with a name, a priority and the sphere in which it became
reachable. Items, locations and transitions of a world do.
-/

namespace Randomizer

/-- Lower priorities are placed earlier. -/
class Participant (α : Type) where
  name : α → String
  priority : α → Binary32
  sphere : α → Nat

namespace Participant

variable {α : Type} [Participant α]

/-- The order within a pool: by priority in the total order, then by name. -/
def order (first second : α) : Ordering :=
  (Binary32.compareTotal (priority first) (priority second)).then
    (compare (name first) (name second))

/-- The sum of the priorities from left to right, which starts from negative zero. -/
def prioritySum (participants : List α) : Binary32 :=
  participants.foldl (fun sum participant => sum + priority participant) Binary32.negativeZero

def meanPriority? (participants : List α) : Option Binary32 :=
  if participants.isEmpty then none
  else some (prioritySum participants / Binary32.ofNat participants.length)

end Participant

/-- How far something has come in the current attempt. -/
inductive Mark where
  | none
  | temporary
  | permanent
  deriving DecidableEq, Repr

def Mark.name : Mark → String
  | .none => "None"
  | .temporary => "Temporary"
  | .permanent => "Permanent"

structure WorldItem where
  item : Item
  priority : Binary32
  sphere : Nat
  placed : Mark
  required : Bool

namespace WorldItem

def ofItem (item : Item) : WorldItem := ⟨item, .zero, 0, .none, false⟩

instance : Participant WorldItem where
  name := fun worldItem => worldItem.item.name
  priority := WorldItem.priority
  sphere := WorldItem.sphere

end WorldItem

/-- A location with its logic and what else it costs. -/
structure WorldLocation where
  logic : Definition
  costs : List Cost
  priority : Binary32
  sphere : Nat
  reachable : Mark

namespace WorldLocation

def ofDefinition (logic : Definition) : WorldLocation := ⟨logic, [], .zero, 0, .none⟩

def name (location : WorldLocation) : String := location.logic.name

instance : Participant WorldLocation where
  name := WorldLocation.name
  priority := WorldLocation.priority
  sphere := WorldLocation.sphere

def addCost (location : WorldLocation) (cost : Cost) : WorldLocation :=
  { location with costs := location.costs ++ [cost] }

/-- Every cost is met and the logic holds. -/
def isOpen (location : WorldLocation) (vars : VariableTable) (reading : Reading) : Bool :=
  location.costs.all (·.isMet vars reading) && location.logic.holds vars reading

/-- The terms that the logic and then the costs read, each once. -/
def terms (location : WorldLocation) (vars : VariableTable) : List TermId :=
  (location.logic.terms vars ++ location.costs.flatMap (·.terms vars)).eraseDups

end WorldLocation

/-- A transition, which is a place to go to and a way to get there. -/
structure WorldTransition where
  transition : Transition
  priority : Binary32
  sphere : Nat
  placed : Mark

namespace WorldTransition

def ofTransition (transition : Transition) : WorldTransition := ⟨transition, .zero, 0, .none⟩

instance : Participant WorldTransition where
  name := fun worldTransition => worldTransition.transition.name
  priority := WorldTransition.priority
  sphere := WorldTransition.sphere

/-- Having a transition sets its term. -/
def grant (worldTransition : WorldTransition) (progression : Progression) : Progression :=
  progression.set worldTransition.transition.term 1

end WorldTransition

end Randomizer
