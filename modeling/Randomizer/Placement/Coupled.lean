import Randomizer.Placement.Strategy

/-!
Groups whose members are items and locations at once, such as the two ends of transitions. In the
final sphere the locations that are left are paired off, across the two sides or, in a group that is
its own dual, among themselves.
-/

namespace Randomizer.Strategy

variable {σ κ : Type} [Participant κ]

/-- Leftover locations of a side as items, the lowest first, each with the best forward location
that is left. There are at most as many rounds as given. -/
def pairOff (direction : Direction) (depth : Nat) (group : String) :
    Nat → EStateM Error (Strategy σ κ κ) (List (Placement κ κ))
  | 0 => return []
  | rounds + 1 => do
    let strategy ← get
    let side := strategy.side direction
    match Side.takeLowest? side.pools with
    | none => return []
    | some (item, pools) =>
      set (strategy.setSide direction { side with pools })
      let location ← selectFrom .forward depth group item
      let others ← pairOff direction depth group rounds
      return ⟨item, location⟩ :: others

/-- The side that gives the items of the reconciliation: the dual one if there is one. -/
def leftoverSide (hasDual : Bool) : Direction := if hasDual then .dual else .forward

/-- How many locations cannot be paired off. -/
def imbalance (strategy : Strategy σ κ κ) (hasDual : Bool) : Nat :=
  if hasDual then
    max strategy.forward.remaining strategy.dual.remaining -
      min strategy.forward.remaining strategy.dual.remaining
  else strategy.forward.remaining % 2

/-- All locations that are left are paired off; nothing is tried when their numbers do not fit. -/
def reconcile (hasDual : Bool) (depth : Nat) (group : String) :
    EStateM Error (Strategy σ κ κ) (List (Placement κ κ)) := do
  let strategy ← get
  if strategy.imbalance hasDual ≠ 0 then
    throw (.unbalanced group (strategy.imbalance hasDual))
  let direction := leftoverSide hasDual
  let placements ← pairOff direction depth group (strategy.side direction).remaining
  let leftover := (← get).remainingLocations
  if leftover ≠ 0 then throw (.unbalanced group leftover)
  return placements

/-- A sphere of each side placed, the dual pairs seen from the forward side, and in the final
sphere what is left paired off. A group without a dual sphere is its own dual. -/
def placeCoupled (sphere : Sphere κ κ) (dualSphere : Option (Sphere κ κ)) :
    EStateM Error (Strategy σ κ κ) (List (Placement κ κ)) := do
  let forward ← placeSphere .forward sphere
  let dual ← match dualSphere with
    | some dualSphere => placeSphere .dual dualSphere
    | none => pure []
  let leftover ←
    if sphere.isFinal then reconcile dualSphere.isSome sphere.depth sphere.group else pure []
  return forward ++ dual.map Placement.swap ++ leftover

end Randomizer.Strategy
