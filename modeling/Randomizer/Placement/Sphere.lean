import Randomizer.Placement.Participant

/-!
What placement is given and what it gives: spheres of items and locations that became reachable at
one depth, and items put at locations.
-/

namespace Randomizer

structure Sphere (ι μ : Type) where
  depth : Nat
  group : String
  items : List ι
  locations : List μ
  /-- Coupled groups pair off what is left in their final sphere. -/
  isFinal : Bool
  deriving DecidableEq, Repr

structure Placement (ι μ : Type) where
  item : ι
  location : μ
  deriving DecidableEq, Repr

/-- The same pair from the other side. -/
def Placement.swap {ι μ : Type} (placement : Placement ι μ) : Placement μ ι :=
  ⟨placement.location, placement.item⟩

end Randomizer
