import Randomizer.Logic.Builder
import Randomizer.Placement.Participant

/-!
Sessions: a builder to edit, the last manager that was built, and one progression to try things on.
Definitions, items and locations made on the way are kept by name, and stand in front of those of
the manager.
-/

namespace Randomizer

structure Session where
  builder : Builder
  built : Option Manager
  progression : Progression
  definitions : NameMap Definition
  items : NameMap Item
  locations : NameMap WorldLocation

/-- What ends a step of a session early. -/
inductive Refusal where
  | error (error : Error)
  | overflow (overflow : Overflow)
  | malformedClause (position : Nat)
  /-- The step needs a manager and none was built yet. -/
  | noManager
  deriving DecidableEq, Repr

namespace Session

def start : Session := ⟨∅, none, ∅, ∅, ∅, ∅⟩

/-- A step keeps what it has done before it is refused. -/
abbrev Step := EStateM Refusal Session

variable {α : Type}

def orRefuse : Except Error α → Step α
  | .ok value => return value
  | .error error => throw (.error error)

def manager : Step Manager := do
  match (← get).built with
  | some manager => return manager
  | none => throw .noManager

def onManager (work : EStateM Error Manager α) : Step α := do
  match work.run (← manager) with
  | .ok value next =>
    modify fun session => { session with built := some next }
    return value
  | .error error next =>
    modify fun session => { session with built := some next }
    throw (.error error)

def onBuilder (work : EStateM Error Builder α) : Step α := do
  match work.run (← get).builder with
  | .ok value next =>
    modify fun session => { session with builder := next }
    return value
  | .error error next =>
    modify fun session => { session with builder := next }
    throw (.error error)

def edit (change : Builder → Except Error Builder) : Step Unit := do
  let builder ← orRefuse (change (← get).builder)
  modify fun session => { session with builder }

def addTerm (name : String) : Step TermId := do
  edit fun builder => .ok (builder.addTerm name)
  orRefuse ((← get).builder.term name)

def addTerms (names : List String) : Step (List TermId) := names.mapM addTerm

/-- A term of the manager, or of the builder as long as there is no manager. -/
def term (name : String) : Step TermId := do
  match (← get).built with
  | some manager => orRefuse (manager.term name)
  | none => orRefuse ((← get).builder.term name)

/-- A manager built now; the one before stays when that fails. -/
def build : Step Manager := do
  let manager ← orRefuse (← get).builder.build
  modify fun session => { session with built := some manager }
  return manager

def reopen : Step Builder := do
  let builder := Builder.ofManager (← manager)
  modify fun session => { session with builder }
  return builder

def definition (name : String) : Step Definition := do
  let manager ← manager
  match ((← get).definitions.get? name).or (manager.definitions.get? name) with
  | some definition => return definition
  | none => throw (.error (.unknownDefinition name))

def item (name : String) : Step Item := do
  let manager ← manager
  match ((← get).items.get? name).or (manager.items.get? name) with
  | some item => return item
  | none => throw (.error (.unknownItem name))

def keepDefinition (definition : Definition) : Step Definition := do
  modify fun session =>
    { session with definitions := session.definitions.insert definition.name definition }
  return definition

def keepItem (item : Item) : Step Item := do
  let _ ← manager
  modify fun session => { session with items := session.items.insert item.name item }
  return item

def compile (name text : String) : Step Definition := do
  keepDefinition (← onManager (Manager.compileText name text))

def compileTokens (name : String) (tokens : List Token) : Step Definition := do
  let _ ← manager
  match Clause.ofTokens tokens with
  | .ok clause => keepDefinition (← onManager (Manager.compile name clause))
  | .error position => throw (.malformedClause position)

def define (name : String) (program : Program) : Step Definition := do
  let _ ← manager
  keepDefinition (← orRefuse (Definition.ofProgram name program))

def create (template : ItemTemplate) : Step Item := do keepItem (← onManager template.create)

/-- A location for a definition, with its costs in order. -/
def locate (definition : Definition) (costs : List Cost) : Step WorldLocation := do
  let location := costs.foldl WorldLocation.addCost (WorldLocation.ofDefinition definition)
  modify fun session =>
    { session with locations := session.locations.insert location.name location }
  return location

def progress (work : EStateM Overflow Progression Unit) : Step Progression := do
  match work.run (← get).progression with
  | .ok _ progression =>
    modify fun session => { session with progression }
    return progression
  | .error overflow progression =>
    modify fun session => { session with progression }
    throw (.overflow overflow)

def grant (name : String) : Step Progression := do
  let item ← item name
  progress (item.grant (← manager).vars)

def revoke (name : String) : Step Progression := do
  progress (← orRefuse (← item name).revoke)

end Session

end Randomizer
