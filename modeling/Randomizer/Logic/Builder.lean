import Randomizer.Json.Reader
import Randomizer.Logic.Document

/-!
The builder collects what a manager is compiled from: a growing table of terms, clauses that are
parsed as they come in, and items. Names are resolved only when it builds.
-/

namespace Randomizer

structure Builder where
  terms : TermTable
  macros : MacroTable
  resolver : Resolver
  /-- Items made elsewhere, which stand in place of templates of the same name. -/
  prefabs : NameMap Item
  templates : NameMap ItemTemplate
  /-- The clauses of all locations, waypoints and transitions. -/
  clauses : NameMap Clause
  waypoints : NameMap LogicRecord
  transitions : NameMap TransitionRecord

namespace Builder

def empty : Builder := ⟨∅, ∅, Resolver.integers, ∅, ∅, ∅, ∅, ∅⟩

instance : EmptyCollection Builder := ⟨empty⟩

instance : Inhabited Builder := ⟨empty⟩

def addTerm (builder : Builder) (name : String) : Builder :=
  { builder with terms := builder.terms.add name }

def term (builder : Builder) (name : String) : Except Error TermId :=
  match builder.terms.idOf? name with
  | some id => .ok id
  | none => .error (.unknownTerm name)

def addPrefab (builder : Builder) (item : Item) : Builder :=
  { builder with prefabs := builder.prefabs.insert item.name item }

def addTemplate (builder : Builder) (template : ItemTemplate) : Builder :=
  { builder with templates := builder.templates.insert template.name template }

def defineMacro (builder : Builder) (name text : String) : Except Error Builder :=
  (builder.macros.define name text).map fun macros => { builder with macros }

def defineMacros (builder : Builder) (batch : List (String × String)) : Except Error Builder :=
  (builder.macros.defineAll batch).map fun macros => { builder with macros }

def addLocation (builder : Builder) (record : LogicRecord) : Except Error Builder :=
  (builder.macros.parse record.name record.logic).map fun clause =>
    { builder with clauses := builder.clauses.insert record.name clause }

/-- The name of a waypoint is also a term. -/
def addWaypoint (builder : Builder) (record : LogicRecord) : Except Error Builder :=
  (builder.macros.parse record.name record.logic).map fun clause =>
    { builder.addTerm record.name with
      clauses := builder.clauses.insert record.name clause
      waypoints := builder.waypoints.insert record.name record }

/-- The full name of a transition is also a term, and is kept in its record. -/
def addTransition (builder : Builder) (record : TransitionRecord) : Except Error Builder :=
  (builder.macros.parse record.fullName record.logic).map fun clause =>
    { builder.addTerm record.fullName with
      clauses := builder.clauses.insert record.fullName clause
      transitions := builder.transitions.insert record.fullName
        { record with name := record.fullName } }

/-- Entries are added one by one; the first that fails ends the work and those before it stay. -/
def addEach {α : Type} (add : Builder → α → Except Error Builder) :
    List α → EStateM Error Builder Unit
  | [] => return
  | entry :: rest => do
    match add (← get) entry with
    | .ok next =>
      set next
      addEach add rest
    | .error error => throw error

def ingest : Document → EStateM Error Builder Unit
  | .terms names => modify fun builder => names.foldl addTerm builder
  | .waypoints records => addEach addWaypoint records
  | .transitions records => addEach addTransition records
  | .macros batch => addEach defineMacros [batch.entries]
  | .items templates => modify fun builder => templates.foldl addTemplate builder
  | .locations records => addEach addLocation records

/-- A document is read as a whole before any of it is ingested. -/
def ingestJson (kind : DocumentKind) (json : Json) : EStateM Error Builder Unit :=
  match Document.ofJson? kind json with
  | some document => ingest document
  | none => throw (.json kind.name "unexpected shape")

def ingestText (kind : DocumentKind) (text : String) : EStateM Error Builder Unit :=
  match Json.ofText? text with
  | some json => ingestJson kind json
  | none => throw (.json kind.name "malformed text")

/-- The definitions of all clauses, in name order but for those that references needed earlier. -/
def compileAll (scope : Scope) : List (String × Clause) → Compile Unit
  | [] => return
  | (name, clause) :: rest => do
    if (← get).definitions.contains name then compileAll scope rest
    else
      let definition ← scope.compileClause name clause
      modify fun compiled =>
        { compiled with definitions := compiled.definitions.insert name definition }
      compileAll scope rest

def definitionOf (definitions : NameMap Definition) (name : String) : Except Error Definition :=
  match definitions.get? name with
  | some definition => .ok definition
  | none => .error (.unknownReference name name)

def buildWaypoint (manager : Manager) (name : String) : Except Error Waypoint := do
  let term ← manager.term name
  let logic ← definitionOf manager.definitions name
  return ⟨term, logic⟩

def buildTransition (manager : Manager) (name : String) (record : TransitionRecord) :
    Except Error Transition := do
  let term ← manager.term name
  let logic ← definitionOf manager.definitions name
  return ⟨name, record.scene, record.gate, term, logic, record.passage⟩

def addWaypoints (manager : Manager) : List (String × LogicRecord) → Except Error Manager
  | [] => .ok manager
  | (name, _) :: rest => do
    let waypoint ← buildWaypoint manager name
    addWaypoints { manager with waypoints := manager.waypoints.insert name waypoint } rest

def addTransitions (manager : Manager) :
    List (String × TransitionRecord) → Except Error Manager
  | [] => .ok manager
  | (name, record) :: rest => do
    let transition ← buildTransition manager name record
    addTransitions { manager with transitions := manager.transitions.insert name transition } rest

def addItems (manager : Manager) : List ItemTemplate → Except Error Manager
  | [] => .ok manager
  | template :: rest =>
    match template.create manager with
    | .ok item next => addItems { next with items := next.items.insert item.name item } rest
    | .error error _ => .error error

/-- Everything compiled into a manager: the definitions, then waypoints and transitions, then the
templates in name order, and last the items made elsewhere. -/
def build (builder : Builder) : Except Error Manager := do
  let scope : Scope := ⟨builder.terms, builder.macros, builder.resolver, builder.clauses⟩
  match compileAll scope builder.clauses.entries ⟨∅, ∅⟩ with
  | .error error _ => .error error
  | .ok _ compiled =>
    let manager : Manager := {
      terms := builder.terms
      macros := builder.macros
      resolver := builder.resolver
      vars := compiled.vars
      definitions := compiled.definitions
      items := ∅
      transitions := ∅
      waypoints := ∅ }
    let manager ← addWaypoints manager builder.waypoints.entries
    let manager ← addTransitions manager builder.transitions.entries
    let manager ← addItems manager builder.templates.values
    return { manager with items := manager.items.insertAll builder.prefabs.entries }

/-- A manager opened for editing: logic comes back as text and items as templates. -/
def ofManager (manager : Manager) : Builder where
  terms := manager.terms
  macros := manager.macros
  resolver := manager.resolver
  prefabs := ∅
  templates := NameMap.ofList <| manager.items.values.map fun item =>
    (item.name, ItemTemplate.ofItem manager item)
  clauses := NameMap.ofList <| manager.definitions.values.map fun definition =>
    (definition.name, manager.clauseOf definition)
  waypoints := NameMap.ofList <| manager.waypoints.values.map fun waypoint =>
    (waypoint.name, ⟨waypoint.name, manager.textOf waypoint.logic⟩)
  transitions := NameMap.ofList <| manager.transitions.values.map fun transition =>
    (transition.name, ⟨transition.name, transition.scene, transition.gate,
      manager.textOf transition.logic, transition.passage⟩)

end Builder

end Randomizer
