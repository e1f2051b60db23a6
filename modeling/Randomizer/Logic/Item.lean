import Randomizer.Logic.Definition
import Randomizer.Progression

/-!
Items and what granting them does to progression. Grants are not idempotent, and a branched item
looks at progression when it is granted, so the order of grants matters.
-/

namespace Randomizer

inductive Item where
  /-- Sets its term to one. -/
  | bool (name : String) (term : TermId)
  | single (name : String) (effect : TermAmount)
  | multi (name : String) (effects : List TermAmount)
  /-- Has its effects only while the cap has not been reached. -/
  | capped (name : String) (effects : List TermAmount) (cap : TermAmount)
  /-- Is one of two items, by what its guard says at the time of the grant. -/
  | branched (name : String) (guard : Definition) (whenTrue whenFalse : Option Item)
  | empty (name : String)

namespace Item

instance : Inhabited Item := ⟨empty ""⟩

def name : Item → String
  | bool name _ | single name _ | multi name _ | capped name _ _ | branched name _ _ _
  | empty name => name

/-- The effects in order; one that overflows stops those after it and keeps those before it. -/
def applyAll (effects : List TermAmount) : EStateM Overflow Progression Unit :=
  effects.forM Progression.apply

def grant (vars : VariableTable) : Item → EStateM Overflow Progression Unit
  | bool _ term => modify (·.set term 1)
  | single _ effect => Progression.apply effect
  | multi _ effects => applyAll effects
  | capped _ effects cap => do
    if (← get).reaches cap then return
    else applyAll effects
  | branched _ guard whenTrue whenFalse => do
    if guard.holds vars (← get).read then
      match whenTrue with
      | some item => item.grant vars
      | none => return
    else
      match whenFalse with
      | some item => item.grant vars
      | none => return
  | empty _ => return

/-- Whether a grant can be undone whatever happened in between. -/
def isRemovable : Item → Bool
  | single _ _ | multi _ _ => true
  | _ => false

/-- An effect taken back; its amount is negated first. -/
def unapply (effect : TermAmount) : EStateM Overflow Progression Unit :=
  if Amount.InRange (-effect.amount) then Progression.increase effect.term (-effect.amount)
  else throw .negate

/-- The work of undoing one grant, for the items that can be removed. -/
def revoke : Item → Except Error (EStateM Overflow Progression Unit)
  | single _ effect => .ok (unapply effect)
  | multi _ effects => .ok (effects.forM unapply)
  | item => .error (.notRemovable item.name)

/-- The terms of all effects that an item can have, the branch for a true guard first. -/
def effectTerms : Item → List TermId
  | bool _ term => [term]
  | single _ effect => [effect.term]
  | multi _ effects => effects.map TermAmount.term
  | capped _ effects _ => effects.map TermAmount.term
  | branched _ _ whenTrue whenFalse =>
    let ofTrue := match whenTrue with
      | some item => item.effectTerms
      | none => []
    let ofFalse := match whenFalse with
      | some item => item.effectTerms
      | none => []
    ofTrue ++ ofFalse
  | empty _ => []

def affectedTerms (item : Item) : List TermId := item.effectTerms.eraseDups

end Item

end Randomizer
