import Randomizer.Binary32.Arithmetic

/-!
Transforms adjust the priority of a location by how deep it lies and how deep the item ranks, so
that items can be pushed toward late locations.
-/

namespace Randomizer

structure DepthContext where
  /-- The depth of the sphere that is being placed. -/
  item : Nat
  /-- How many completed spheres have a mean item priority up to the item's. -/
  itemPriority : Nat
  /-- The sphere in which the location became reachable. -/
  location : Nat
  deriving DecidableEq, Repr

abbrev Transform := DepthContext → Binary32 → Binary32

namespace Transform

def identity : Transform := fun _ priority => priority

/-- Each sphere by which a location is shallower than the item's priority depth adds the factor. -/
def scaled (factor : Binary32) : Transform := fun depths priority =>
  if depths.location < depths.itemPriority then
    priority + factor * Binary32.ofNat (depths.itemPriority - depths.location)
  else priority

/-- The order of priorities turned around. -/
def reversed : Transform := fun _ priority => -priority

def constant (value : Binary32) : Transform := fun _ _ => value

/-- Late locations come first. -/
def late : Transform := fun depths priority => priority - Binary32.ofNat depths.location

/-- Locations that are close to the item's sphere come first, whatever their priority. -/
def gap : Transform := fun depths _ =>
  Binary32.ofNat (max depths.item depths.location - min depths.item depths.location)

end Transform

end Randomizer
