import Randomizer.Placement.Strategy
import Randomizer.PriorityQueue
import Randomizer.World.Generator
import Randomizer.World.Growth

/-!
Runs: attempts at placing all items of a world, each from a seed of its own. An attempt shuffles the
items, draws priorities for the locations, lets the world grow and places its spheres in order. A
request for a new attempt is met with the next seed while the budget lasts.
-/

namespace Randomizer

/-- What ends a run without a report. -/
inductive Fault where
  | error (error : Error)
  | overflow (overflow : Overflow)
  deriving DecidableEq, Repr

/-- Overflows are final; an error may ask for a new attempt. -/
def Fault.isRetryable : Fault → Bool
  | .error cause => cause.isRetryable
  | .overflow _ => false

structure RunConfig where
  /-- The seed of the first attempt. -/
  seed : UInt64
  maxAttempts : Nat
  /-- The penalty for each sphere by which a location is too shallow; zero leaves priorities as
  they are. -/
  scaling : Binary32
  deriving DecidableEq, Repr

namespace RunConfig

def standard : RunConfig := ⟨42, 10, ⟨0x3F000000⟩⟩

def light : RunConfig := ⟨42, 1, .zero⟩

def exhaustive : RunConfig := ⟨42, 100, ⟨0x40000000⟩⟩

/-- The configurations that have a name. -/
def preset? : String → Option RunConfig
  | "default" => some standard
  | "light" => some light
  | "exhaustive" => some exhaustive
  | _ => none

def transform (config : RunConfig) : Transform :=
  if config.scaling.isZero then Transform.identity else Transform.scaled config.scaling

end RunConfig

/-- What an attempt that succeeds gives. -/
structure Outcome where
  spheres : Nat
  placements : List (Placement WorldItem WorldLocation)
  unreachable : List String
  finalState : Progression

structure Report extends Outcome where
  /-- The seed of the attempt that succeeded. -/
  seed : UInt64
  attempts : Nat

namespace Report

/-- The location that an item of the given name was placed at. -/
def locationOf? (report : Report) (name : String) : Option WorldLocation :=
  (report.placements.find? fun placement => placement.item.item.name = name).map
    Placement.location

end Report

namespace World

/-- The items in the order of their random keys, with their rank among all as priority. -/
def shuffle (keyed : List (WorldItem × UInt64)) : List WorldItem :=
  let queue := PriorityQueue.ofList (keyed.map fun (item, key) => (key, item))
  let total := Binary32.ofNat (max keyed.length 1)
  queue.drain.zipIdx.map fun ((_, item), rank) =>
    { item with priority := Binary32.ofNat rank / total, placed := .none }

/-- The growth of a world from one seed: a key for each item, then a priority for each location. -/
def growthOfSeed (world : World) (generator : Generator) (initial : Progression) (seed : UInt64) :
    Growth :=
  let (keyed, state) :=
    Generator.drawEach generator.nextKey world.items (generator.ofSeed seed)
  let (drawn, _) := Generator.drawEach generator.nextFraction world.locations state
  let locations := drawn.map fun (location, priority) =>
    { location with priority, reachable := .none }
  Growth.ofOrder world.manager initial (shuffle keyed) locations

end World

namespace Run

variable {σ : Type}

abbrev RunStrategy (σ : Type) := Strategy σ WorldItem WorldLocation

/-- The spheres placed one after another. -/
def placeAll : List (Sphere WorldItem WorldLocation) →
    EStateM Error (RunStrategy σ) (List (Placement WorldItem WorldLocation))
  | [] => return []
  | sphere :: rest => do
    let placements ← Strategy.place sphere
    let others ← placeAll rest
    return placements ++ others

/-- One attempt. An overflow ends it only after the spheres before it are placed. -/
def attempt (world : World) (generator : Generator) (initial : Progression) (seed : UInt64) :
    EStateM Fault (RunStrategy σ) Outcome :=
  fun strategy =>
    let growth := world.growthOfSeed generator initial seed
    match placeAll growth.spheres strategy with
    | .error error strategy => .error (.error error) strategy
    | .ok placements strategy =>
      match growth.ending with
      | .error overflow => .error (.overflow overflow) strategy
      | .ok frontier =>
        let placements := placements.map fun placement =>
          { placement with item := { placement.item with placed := .permanent } }
        .ok ⟨growth.spheres.length, placements, frontier.unreached.map WorldLocation.name,
          frontier.progression⟩ strategy

/-- An attempt and, while it asks for a new one, up to a number of further attempts with the seeds
that follow. -/
def attempts (world : World) (generator : Generator) (initial : Progression) :
    (further tried : Nat) → (seed : UInt64) → EStateM Fault (RunStrategy σ) Report
  | 0, tried, seed => fun strategy =>
    match attempt world generator initial seed strategy with
    | .ok outcome strategy => .ok ⟨outcome, seed, tried + 1⟩ strategy
    | .error fault strategy => .error fault strategy
  | further + 1, tried, seed => fun strategy =>
    match attempt world generator initial seed strategy with
    | .ok outcome strategy => .ok ⟨outcome, seed, tried + 1⟩ strategy
    | .error fault strategy =>
      if fault.isRetryable then
        attempts world generator initial further (tried + 1) (seed + 1) strategy.reset
      else .error fault strategy

end Run

/-- The run of a world with the draws of a generator, and what the hooks of the constraints remember
after it. -/
def World.runWith {σ : Type} (world : World) (generator : Generator) (config : RunConfig)
    (initial : Progression) (constraints : List (Constraint σ WorldItem WorldLocation))
    (memory : σ) : Except Fault Report × σ :=
  let strategy := Strategy.create config.transform constraints memory
  match Run.attempts world generator initial (config.maxAttempts - 1) 0 config.seed strategy with
  | .ok report strategy => (.ok report, strategy.memory)
  | .error fault strategy => (.error fault, strategy.memory)

/-- The run of a world with random words. -/
def World.run {σ : Type} (world : World) (config : RunConfig) (initial : Progression)
    (constraints : List (Constraint σ WorldItem WorldLocation)) (memory : σ) :
    Except Fault Report × σ :=
  world.runWith .words config initial constraints memory

end Randomizer
