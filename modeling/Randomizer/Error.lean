/-!
What can go wrong while logic is read, compiled and looked up and while items are placed.
-/

namespace Randomizer

inductive Error where
  | parse (name message : String)
  | unresolvedName (definition name : String)
  | unknownTerm (name : String)
  | unknownMacro (name : String)
  | unknownReference (definition target : String)
  | circularReference (name : String)
  | json (context message : String)
  | malformedProgram (name : String) (position : Nat)
  | unknownItem (name : String)
  | unknownDefinition (name : String)
  | notRemovable (item : String)
  | emptyQueue
  | outOfLocations (group item : String)
  | exhausted (group item : String)
  | unbalanced (group : String) (leftover : Nat)
  | constraintViolation (label item location : String)
  deriving DecidableEq, Repr

namespace Error

/-- The name of an error's kind. -/
def kind : Error → String
  | parse .. => "Parse"
  | unresolvedName .. => "UnresolvedName"
  | unknownTerm .. => "UnknownTerm"
  | unknownMacro .. => "UnknownMacro"
  | unknownReference .. => "UnknownReference"
  | circularReference .. => "CircularReference"
  | json .. => "Json"
  | malformedProgram .. => "MalformedProgram"
  | unknownItem .. => "UnknownItem"
  | unknownDefinition .. => "UnknownLogicDef"
  | notRemovable .. => "NotRemovable"
  | emptyQueue => "EmptyQueue"
  | outOfLocations .. => "OutOfLocations"
  | exhausted .. => "Exhausted"
  | unbalanced .. => "Unbalanced"
  | constraintViolation .. => "ConstraintViolation"

def message : Error → String
  | .parse name message => s!"Malformed logic for {name}: {message}"
  | .unresolvedName definition name => s!"Unable to resolve {name} in logic for {definition}"
  | .unknownTerm name => s!"Unknown term: {name}"
  | .unknownMacro name => s!"Unknown macro: {name}"
  | .unknownReference definition target =>
      s!"Unknown reference *{target} in logic for {definition}"
  | .circularReference name => s!"Circular reference through {name}"
  | .json context message => s!"Invalid {context} json: {message}"
  | .malformedProgram name position => s!"Malformed program for {name} at symbol {position}"
  | .unknownItem name => s!"Unknown item: {name}"
  | .unknownDefinition name => s!"Unknown logic definition: {name}"
  | .notRemovable item => s!"Item {item} has no exact inverse"
  | .emptyQueue => "Priority queue empty"
  | .outOfLocations group item => s!"Out of locations for {item} in group {group}"
  | .exhausted group item => s!"No locations left for {item} in group {group}"
  | .unbalanced group leftover =>
      s!"Group {group} has {leftover} locations left over after reconciliation"
  | .constraintViolation label item location =>
      s!"Constraint {label} rejected {item} at {location}"

/-- Only a request for a new attempt is worth repeating with fresh randomness. -/
def isRetryable : Error → Bool
  | .outOfLocations _ _ => true
  | _ => false

end Error

end Randomizer
