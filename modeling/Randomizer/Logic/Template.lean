import Randomizer.Json.Basic
import Randomizer.Logic.Manager

/-!
Item templates: items that name their terms and write their guards as text. They are made into items
against a manager, recovered from items, and written as JSON objects told apart by their type.
-/

namespace Randomizer

/-- A term's name with an amount. -/
structure NamedAmount where
  term : String
  amount : Int
  deriving DecidableEq, Repr

namespace NamedAmount

def resolve (manager : Manager) (named : NamedAmount) : Except Error TermAmount :=
  (manager.term named.term).map fun term => ⟨term, named.amount⟩

def ofTermAmount (manager : Manager) (pair : TermAmount) : NamedAmount :=
  ⟨manager.terms.label pair.term, pair.amount⟩

end NamedAmount

inductive ItemTemplate where
  | bool (name term : String)
  | single (name : String) (effect : NamedAmount)
  | multi (name : String) (effects : List NamedAmount)
  | capped (name : String) (effects : List NamedAmount) (cap : NamedAmount)
  | branched (name guard : String) (whenTrue whenFalse : Option ItemTemplate)
  | empty (name : String)

namespace ItemTemplate

instance : Inhabited ItemTemplate := ⟨empty ""⟩

def name : ItemTemplate → String
  | bool name _ | single name _ | multi name _ | capped name _ _ | branched name _ _ _
  | empty name => name

/-- The item of a template. Guards are compiled under the template's name, before the branches;
the variables that they find stay even when a later step fails. -/
def create : ItemTemplate → EStateM Error Manager Item
  | bool name term => do
    let term ← lookUp (·.term term)
    return .bool name term
  | single name effect => do
    let effect ← lookUp (effect.resolve ·)
    return .single name effect
  | multi name effects => do
    let effects ← lookUp fun manager => effects.mapM (·.resolve manager)
    return .multi name effects
  | capped name effects cap => do
    let effects ← lookUp fun manager => effects.mapM (·.resolve manager)
    let cap ← lookUp (cap.resolve ·)
    return .capped name effects cap
  | branched name guard whenTrue whenFalse => do
    let guard ← Manager.compileText name guard
    let whenTrue ← match whenTrue with
      | some template => some <$> template.create
      | none => pure none
    let whenFalse ← match whenFalse with
      | some template => some <$> template.create
      | none => pure none
    return .branched name guard whenTrue whenFalse
  | empty name => return .empty name
where
  lookUp {α : Type} (find : Manager → Except Error α) : EStateM Error Manager α := do
    match find (← get) with
    | .ok found => return found
    | .error error => throw error

/-- The template of an item, with the names that its manager has for terms and logic. -/
def ofItem (manager : Manager) : Item → ItemTemplate
  | .bool name term => .bool name (manager.terms.label term)
  | .single name effect => .single name (.ofTermAmount manager effect)
  | .multi name effects => .multi name (effects.map (.ofTermAmount manager))
  | .capped name effects cap =>
    .capped name (effects.map (.ofTermAmount manager)) (.ofTermAmount manager cap)
  | .branched name guard whenTrue whenFalse =>
    .branched name (manager.textOf guard)
      (match whenTrue with
        | some item => some (ofItem manager item)
        | none => none)
      (match whenFalse with
        | some item => some (ofItem manager item)
        | none => none)
  | .empty name => .empty name

end ItemTemplate

end Randomizer
