import Randomizer.Placement.Constraint
import Randomizer.Placement.Sphere
import Randomizer.Placement.Transform
import Randomizer.SortedList

/-!
Greedy placement, sphere by sphere. For each item the pools of earlier spheres are scanned, oldest
first and each in its order; a location that satisfies the constraints is preferred to one that does
not, then the lowest adjusted priority, then the earliest. A sphere's own locations form a new pool
once its items are placed.
-/

namespace Randomizer

/-- One use of a transform. -/
structure Adjustment where
  depths : DepthContext
  priority : Binary32
  adjusted : Binary32
  deriving DecidableEq, Repr

/-- The locations of one sphere that are still free. -/
abbrev Pool (μ : Type) [Participant μ] := SortedList μ Participant.order

/-- The pools of one side, oldest first, and the mean item priorities of its completed spheres. -/
structure Side (μ : Type) [Participant μ] where
  pools : List (Pool μ)
  means : SortedList Binary32 Binary32.compareTotal

namespace Side

variable {μ : Type} [Participant μ]

def empty : Side μ := ⟨[], ∅⟩

instance : EmptyCollection (Side μ) := ⟨empty⟩

instance : Inhabited (Side μ) := ⟨empty⟩

/-- All free locations, those of the oldest pool first. -/
def locations (side : Side μ) : List μ := side.pools.flatMap SortedList.items

def remaining (side : Side μ) : Nat := side.locations.length

/-- The pools without the location at an index of one of them. -/
def remove (side : Side μ) (pool index : Nat) : Side μ :=
  { side with pools := side.pools.modify pool fun locations => locations.eraseIndex index }

/-- A completed sphere is recorded, one without items below every priority, and its locations
become the newest pool. -/
def complete (side : Side μ) (mean : Option Binary32) (locations : List μ) : Side μ where
  pools := side.pools ++ [SortedList.ofList locations]
  means := side.means.insert (mean.getD (Binary32.infinity true))

/-- The first of all pool heads in the pool order, taken out of the oldest pool that has one. -/
def takeLowest? : List (Pool μ) → Option (μ × List (Pool μ))
  | [] => none
  | pool :: rest =>
    match pool.min?, takeLowest? rest with
    | none, none => none
    | none, some (lowest, others) => some (lowest, pool :: others)
    | some head, none => some (head, pool.eraseIndex 0 :: rest)
    | some head, some (lowest, others) =>
      if Participant.order lowest head = .lt then some (lowest, pool :: others)
      else some (head, pool.eraseIndex 0 :: rest)

end Side

/-- A location that a scan holds as the best so far. -/
structure Candidate (μ : Type) where
  pool : Nat
  index : Nat
  location : μ
  adjusted : Binary32
  satisfied : Bool

/-- The best candidate of a scan so far and the uses of the transform, oldest first. -/
structure Scan (μ : Type) where
  best : Option (Candidate μ)
  trace : List Adjustment

namespace Scan

variable {μ : Type}

def start : Scan μ := ⟨none, []⟩

/-- Whether a location is passed over without a look at its priority. -/
def skips (scan : Scan μ) (satisfied : Bool) : Bool :=
  match scan.best with
  | some best => best.satisfied && !satisfied
  | none => false

def improves (scan : Scan μ) (satisfied : Bool) (adjusted : Binary32) : Bool :=
  match scan.best with
  | some best => (satisfied && !best.satisfied) || adjusted.less best.adjusted
  | none => true

end Scan

/-- The two sides of a coupled group; other groups use the forward side alone. -/
inductive Direction where
  | forward
  | dual
  deriving DecidableEq, Repr

structure Strategy (σ ι μ : Type) [Participant μ] where
  transform : Transform
  constraints : List (Constraint σ ι μ)
  /-- What the hooks of the constraints remember. -/
  memory : σ
  forward : Side μ
  dual : Side μ
  /-- Every use of the transform, oldest first. -/
  trace : Array Adjustment

namespace Strategy

variable {σ ι μ : Type} [Participant ι] [Participant μ]

def create (transform : Transform) (constraints : List (Constraint σ ι μ)) (memory : σ) :
    Strategy σ ι μ :=
  ⟨transform, constraints, memory, ∅, ∅, #[]⟩

def addConstraint (strategy : Strategy σ ι μ) (constraint : Constraint σ ι μ) :
    Strategy σ ι μ :=
  { strategy with constraints := strategy.constraints ++ [constraint] }

/-- A strategy with the same transform and constraints that has placed nothing. -/
def duplicate (strategy : Strategy σ ι μ) : Strategy σ ι μ :=
  create strategy.transform strategy.constraints strategy.memory

/-- All pools and all history are dropped for a new attempt. -/
def reset (strategy : Strategy σ ι μ) : Strategy σ ι μ :=
  { strategy with forward := ∅, dual := ∅, trace := #[] }

def side (strategy : Strategy σ ι μ) : Direction → Side μ
  | .forward => strategy.forward
  | .dual => strategy.dual

def setSide (strategy : Strategy σ ι μ) (direction : Direction) (side : Side μ) :
    Strategy σ ι μ :=
  match direction with
  | .forward => { strategy with forward := side }
  | .dual => { strategy with dual := side }

/-- The forward locations that are still free. -/
def remainingLocations (strategy : Strategy σ ι μ) : Nat := strategy.forward.remaining

/-- The forward spheres that are completed. -/
def recordedSpheres (strategy : Strategy σ ι μ) : Nat := strategy.forward.means.size

def satisfies (strategy : Strategy σ ι μ) (item : ι) (location : μ) : Bool :=
  strategy.constraints.all (·.isSatisfied item location)

/-- A scan carried through the rest of a pool, which starts at a given index. It leaves the pool
at the first satisfying location that improves on the best so far. -/
def scanPool (strategy : Strategy σ ι μ) (item : ι) (depth priorityDepth pool index : Nat) :
    List μ → Scan μ → Scan μ
  | [], scan => scan
  | location :: rest, scan =>
    let satisfied := strategy.satisfies item location
    if scan.skips satisfied then
      strategy.scanPool item depth priorityDepth pool (index + 1) rest scan
    else
      let depths : DepthContext := ⟨depth, priorityDepth, Participant.sphere location⟩
      let priority := Participant.priority location
      let adjusted := strategy.transform depths priority
      let trace := scan.trace ++ [⟨depths, priority, adjusted⟩]
      if scan.improves satisfied adjusted then
        let best := some ⟨pool, index, location, adjusted, satisfied⟩
        if satisfied then ⟨best, trace⟩
        else strategy.scanPool item depth priorityDepth pool (index + 1) rest ⟨best, trace⟩
      else
        strategy.scanPool item depth priorityDepth pool (index + 1) rest { scan with trace }

/-- A scan carried through the pools from a given position on. -/
def scanPools (strategy : Strategy σ ι μ) (item : ι) (depth priorityDepth position : Nat) :
    List (Pool μ) → Scan μ → Scan μ
  | [], scan => scan
  | pool :: rest, scan =>
    strategy.scanPools item depth priorityDepth (position + 1) rest
      (strategy.scanPool item depth priorityDepth position 0 pool.items scan)

/-- The scan of all pools of a side for an item. -/
def scan (strategy : Strategy σ ι μ) (direction : Direction) (depth : Nat) (item : ι) : Scan μ :=
  let side := strategy.side direction
  strategy.scanPools item depth (side.means.countUpTo (Participant.priority item)) 0 side.pools
    .start

/-- The best location for an item, taken out of its pool once the hooks of the constraints that it
violates accept it. -/
def selectFrom (direction : Direction) (depth : Nat) (group : String) (item : ι) :
    EStateM Error (Strategy σ ι μ) μ :=
  fun strategy =>
    let scan := strategy.scan direction depth item
    let traced := { strategy with trace := strategy.trace ++ scan.trace }
    match scan.best with
    | none => .error (.exhausted group (Participant.name item)) traced
    | some best =>
      match Constraint.reject strategy.constraints item best.location strategy.memory with
      | .error error memory => .error error { traced with memory }
      | .ok _ memory =>
        let side := (strategy.side direction).remove best.pool best.index
        .ok best.location ({ traced with memory }.setSide direction side)

def select (depth : Nat) (group : String) (item : ι) : EStateM Error (Strategy σ ι μ) μ :=
  selectFrom .forward depth group item

/-- The items of a sphere placed in order; then the sphere is completed. A failure keeps what the
items before it have used up. -/
def placeSphere (direction : Direction) (sphere : Sphere ι μ) :
    EStateM Error (Strategy σ ι μ) (List (Placement ι μ)) := do
  let placements ← sphere.items.mapM fun item => do
    let location ← selectFrom direction sphere.depth sphere.group item
    return ⟨item, location⟩
  modify fun strategy =>
    strategy.setSide direction <|
      (strategy.side direction).complete (Participant.meanPriority? sphere.items)
        sphere.locations
  return placements

def place (sphere : Sphere ι μ) : EStateM Error (Strategy σ ι μ) (List (Placement ι μ)) :=
  placeSphere .forward sphere

end Strategy

end Randomizer
