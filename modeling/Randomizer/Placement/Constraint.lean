import Randomizer.Error
import Randomizer.Text.Character

/-!
Constraints are preferences. A location that violates one is used only when none satisfies them all,
and then the constraint's hook decides: it accepts, asks for a new attempt or aborts. Hooks share a
memory that they may read and change.
-/

namespace Randomizer

structure Constraint (σ ι μ : Type) where
  label : Option String
  isSatisfied : ι → μ → Bool
  hook : Option (ι → μ → EStateM Error σ Unit)

namespace Constraint

variable {σ ι μ : Type}

/-- A constraint without a hook accepts its violation. -/
def onViolated (constraint : Constraint σ ι μ) (item : ι) (location : μ) :
    EStateM Error σ Unit :=
  match constraint.hook with
  | some hook => hook item location
  | none => return

def description (constraint : Constraint σ ι μ) : String :=
  let label :=
    match constraint.label with
    | some label => "Some(" ++ quoted label ++ ")"
    | none => "None"
  "Constraint \x7b label: " ++ label ++ ", has_fail: " ++ toString constraint.hook.isSome ++
    " \x7d"

/-- The hooks of all violated constraints in order, up to the first that fails. -/
def reject (constraints : List (Constraint σ ι μ)) (item : ι) (location : μ) :
    EStateM Error σ Unit :=
  (constraints.filter fun constraint => !constraint.isSatisfied item location).forM
    (·.onViolated item location)

end Constraint

end Randomizer
