import Randomizer.Proofs.Placement.Selection
import Randomizer.Proofs.PriorityQueue
import Randomizer.Proofs.World.Opening
import Randomizer.World.Run

namespace Randomizer

/-- Drawing for each element leaves the elements as they are. -/
theorem Generator.map_fst_drawEach {α β τ : Type} (draw : τ → β × τ) (list : List α)
    (state : τ) : (drawEach draw list state).1.map Prod.fst = list := by
  induction list generalizing state with
  | nil => rfl
  | cons element rest ih => exact congrArg (element :: ·) (ih _)

namespace World

/-- Shuffling only reorders items. -/
theorem map_nature_shuffle_perm (keyed : List (WorldItem × UInt64)) :
    ((shuffle keyed).map WorldItem.nature).Perm (keyed.map fun pair => pair.1.nature) := by
  let entries := keyed.map fun pair => (pair.2, pair.1)
  have drained := (PriorityQueue.drain_ofList_perm entries).map fun pair => pair.2.nature
  have listed := congrArg (List.map fun pair => pair.2.nature)
    (List.zipIdx_map_fst 0 (PriorityQueue.ofList entries).drain)
  rw [← listed, List.map_map, List.map_map] at drained
  simp only [shuffle, List.map_map, Function.comp_def, WorldItem.nature]
  simpa only [Function.comp_def, WorldItem.nature] using drained

/-- The draws of an attempt change the order of the items and nothing of what opens a location. -/
theorem exists_growthOfSeed_eq (world : World) (generator : Generator) (initial : Progression)
    (seed : UInt64) :
    ∃ items locations, world.growthOfSeed generator initial seed =
        Growth.ofOrder world.manager initial items locations ∧
      (items.map WorldItem.nature).Perm (world.items.map WorldItem.nature) ∧
      locations.map WorldLocation.access = world.locations.map WorldLocation.access := by
  have keyed := congrArg (List.map WorldItem.nature)
    (Generator.map_fst_drawEach generator.nextKey world.items (generator.ofSeed seed))
  have drawn := congrArg (List.map WorldLocation.access)
    (Generator.map_fst_drawEach generator.nextFraction world.locations
      (Generator.drawEach generator.nextKey world.items (generator.ofSeed seed)).2)
  rw [List.map_map] at keyed drawn
  refine ⟨_, _, rfl, ?_, ?_⟩
  · rw [← keyed]
    exact map_nature_shuffle_perm _
  · rw [← drawn, List.map_map]
    rfl

end World

namespace Run

variable {σ : Type}

/-- What spheres that were placed one after another did to the forward side. -/
structure Filled (spheres : List (Sphere WorldItem WorldLocation)) (strategy next : RunStrategy σ)
    (placements : List (Placement WorldItem WorldLocation)) : Prop where
  items : placements.map Placement.item = spheres.flatMap Sphere.items
  locations : (strategy.forward.locations ++ spheres.flatMap Sphere.locations).Perm
    (placements.map Placement.location ++ next.forward.locations)

/-- Spheres that are placed fill earlier locations with their items. -/
theorem filled_placeAll {spheres : List (Sphere WorldItem WorldLocation)}
    {strategy next : RunStrategy σ} {placements : List (Placement WorldItem WorldLocation)}
    (ran : placeAll spheres strategy = .ok placements next) :
    Filled spheres strategy next placements := by
  induction spheres generalizing strategy placements with
  | nil =>
      cases ran
      exact ⟨rfl, by simp⟩
  | cons sphere rest ih =>
      obtain ⟨first, middle, ranFirst, continued⟩ := EStateM.bind_eq_ok_iff.1 ran
      obtain ⟨others, last, ranRest, built⟩ := EStateM.bind_eq_ok_iff.1 continued
      cases built
      have placed := Strategy.placed_placeSphere ranFirst
      have later := ih ranRest
      constructor
      · rw [List.map_append, List.flatMap_cons, placed.items, later.items]
      · rw [List.flatMap_cons, List.map_append, List.append_assoc, ← List.append_assoc]
        refine (placed.locations.append_right _).trans ?_
        rw [List.append_assoc]
        exact later.locations.append_left _

/-- Items of spheres go to locations of earlier spheres. -/
theorem sphere_lt_of_placeAll {depth : Nat} {spheres : List (Sphere WorldItem WorldLocation)}
    {strategy next : RunStrategy σ} {placements : List (Placement WorldItem WorldLocation)}
    (layered : Layered depth spheres)
    (below : ∀ location ∈ strategy.forward.locations, location.sphere < depth)
    (ran : placeAll spheres strategy = .ok placements next)
    {placement : Placement WorldItem WorldLocation} (member : placement ∈ placements) :
    placement.location.sphere < placement.item.sphere := by
  induction spheres generalizing depth strategy placements with
  | nil =>
      cases ran
      cases member
  | cons sphere rest ih =>
      obtain ⟨first, middle, ranFirst, continued⟩ := EStateM.bind_eq_ok_iff.1 ran
      obtain ⟨others, last, ranRest, built⟩ := EStateM.bind_eq_ok_iff.1 continued
      cases built
      have placed := Strategy.placed_placeSphere ranFirst
      obtain ⟨sameItems, sameLocations, deeper⟩ := layered
      rcases List.mem_append.1 member with now | after
      · have item : placement.item ∈ sphere.items := by
          rw [← placed.items]
          exact List.mem_map_of_mem now
        rw [sameItems placement.item item]
        exact below placement.location (placed.taken placement now)
      · refine ih deeper (fun location free => ?_) ranRest after
        have among : location ∈ strategy.forward.locations ++ sphere.locations := by
          have left := List.mem_append_right (first.map Placement.location) free
          exact placed.locations.mem_iff.2 left
        rcases List.mem_append.1 among with old | new
        · exact Nat.lt_succ_of_lt (below location old)
        · rw [sameLocations location new]
          exact Nat.lt_succ_self depth

/-- The parts of an attempt that succeeds. -/
theorem attempt_eq_ok {world : World} {generator : Generator} {initial : Progression}
    {seed : UInt64} {strategy next : RunStrategy σ} {outcome : Outcome}
    (ran : attempt world generator initial seed strategy = .ok outcome next) :
    ∃ placements final,
      placeAll (world.growthOfSeed generator initial seed).spheres strategy = .ok placements next ∧
      (world.growthOfSeed generator initial seed).ending = .ok final ∧
      outcome = ⟨(world.growthOfSeed generator initial seed).spheres.length,
        placements.map fun placement =>
          { placement with item := { placement.item with placed := .permanent } },
        final.unreached.map WorldLocation.name, final.progression⟩ := by
  simp only [attempt] at ran
  split at ran
  · cases ran
  next placements _ placed =>
    split at ran
    · cases ran
    next final ends =>
      cases ran
      exact ⟨placements, final, placed, ends, rfl⟩

/-- An attempt succeeds when its spheres are placed and no grant overflowed. -/
theorem attempt_of_placeAll {world : World} {generator : Generator} {initial : Progression}
    {seed : UInt64} {strategy next : RunStrategy σ}
    {placements : List (Placement WorldItem WorldLocation)} {final : Frontier}
    (placed : placeAll (world.growthOfSeed generator initial seed).spheres strategy =
      .ok placements next)
    (ends : (world.growthOfSeed generator initial seed).ending = .ok final) :
    attempt world generator initial seed strategy =
      .ok ⟨(world.growthOfSeed generator initial seed).spheres.length,
        placements.map fun placement =>
          { placement with item := { placement.item with placed := .permanent } },
        final.unreached.map WorldLocation.name, final.progression⟩ next := by
  simp only [attempt, placed, ends]

/-- After an attempt that succeeds there is no other. -/
theorem attempts_of_attempt {world : World} {generator : Generator} {initial : Progression}
    {seed : UInt64} {strategy next : RunStrategy σ} {outcome : Outcome}
    (attempted : attempt world generator initial seed strategy = .ok outcome next)
    (further tried : Nat) :
    attempts world generator initial further tried seed strategy =
      .ok ⟨outcome, seed, tried + 1⟩ next := by
  cases further <;> simp only [attempts, attempted]

/-- The report of several attempts is that of the last one. -/
theorem exists_attempt_of_attempts {world : World} {generator : Generator} {initial : Progression}
    {further tried : Nat} {seed : UInt64} {strategy next : RunStrategy σ} {report : Report}
    (unused : strategy.forward = ∅)
    (ran : attempts world generator initial further tried seed strategy = .ok report next) :
    ∃ start : RunStrategy σ, start.forward = ∅ ∧
      attempt world generator initial report.seed start = .ok report.toOutcome next := by
  induction further generalizing tried seed strategy with
  | zero =>
      unfold attempts at ran
      split at ran
      next succeeded =>
        cases ran
        exact ⟨strategy, unused, succeeded⟩
      · cases ran
  | succ further ih =>
      unfold attempts at ran
      split at ran
      next succeeded =>
        cases ran
        exact ⟨strategy, unused, succeeded⟩
      · split at ran
        · exact ih rfl ran
        · cases ran

end Run

/-- A report written from a chronicle. -/
structure Report.Records (report : Report) (chronicle : Chronicle) : Prop where
  items : report.placements.map (fun placement => (placement.item.nature, placement.item.sphere)) =
    chronicle.items.map fun item => (item.nature, item.sphere)
  locations : ∃ free,
    (report.placements.map Placement.location ++ free).Perm chronicle.opened
  forward : ∀ placement ∈ report.placements,
    placement.location.sphere < placement.item.sphere
  spheres_pos : 0 < report.spheres
  exists_sphere_iff : ∀ sphere,
    (∃ item ∈ chronicle.items, item.sphere = sphere) ↔ 1 ≤ sphere ∧ sphere < report.spheres
  unreachable : report.unreachable = chronicle.final.unreached.map WorldLocation.name
  finalState : report.finalState = chronicle.final.progression

/-- The report of a run is that of an attempt without locations at its start. -/
theorem World.exists_attempt {σ : Type} {world : World} {generator : Generator} {config : RunConfig}
    {initial : Progression} {constraints : List (Constraint σ WorldItem WorldLocation)}
    {memory : σ} {report : Report}
    (ran : (world.runWith generator config initial constraints memory).1 = .ok report) :
    ∃ start next : Run.RunStrategy σ, start.forward = ∅ ∧
      Run.attempt world generator initial report.seed start = .ok report.toOutcome next := by
  simp only [World.runWith] at ran
  split at ran
  next found strategy succeeded =>
    cases ran
    obtain ⟨start, unused, attempted⟩ := Run.exists_attempt_of_attempts rfl succeeded
    exact ⟨start, strategy, unused, attempted⟩
  · cases ran

/-- The report of a run records the chronicle of its items, in an order of its own. -/
theorem World.exists_records {σ : Type} {world : World} {generator : Generator} {config : RunConfig}
    {initial : Progression} {constraints : List (Constraint σ WorldItem WorldLocation)}
    {memory : σ} {report : Report}
    (ran : (world.runWith generator config initial constraints memory).1 = .ok report) :
    ∃ items locations chronicle,
      (items.map WorldItem.nature).Perm (world.items.map WorldItem.nature) ∧
      locations.map WorldLocation.access = world.locations.map WorldLocation.access ∧
      chronicle.Tells world.manager initial items locations ∧ report.Records chronicle := by
  obtain ⟨start, next, unused, attempted⟩ := exists_attempt ran
  obtain ⟨placements, final, placed, ends, reported⟩ := Run.attempt_eq_ok attempted
  obtain ⟨items, locations, grows, sameItems, sameLocations⟩ :=
    world.exists_growthOfSeed_eq generator initial report.seed
  rw [grows] at placed ends reported
  obtain ⟨chronicle, tells, ended, spheresItems, spheresLocations⟩ := Growth.exists_tells ends
  have filled := Run.filled_placeAll placed
  have wasPlaced := congrArg Outcome.placements reported
  have sphereCount := congrArg Outcome.spheres reported
  refine ⟨items, locations, chronicle, sameItems, sameLocations, tells, ?_⟩
  subst ended
  constructor
  · have all := congrArg (List.map fun item : WorldItem => (item.nature, item.sphere)) filled.items
    rw [List.map_map, spheresItems] at all
    rw [wasPlaced, List.map_map]
    exact all
  · have drawn := filled.locations
    rw [unused, spheresLocations] at drawn
    rw [wasPlaced, List.map_map]
    exact ⟨next.forward.locations, drawn.symm⟩
  · intro placement member
    rw [wasPlaced] at member
    obtain ⟨source, among, rfl⟩ := List.mem_map.1 member
    have none : ∀ location ∈ start.forward.locations, location.sphere < 0 := by
      intro location free
      rw [unused] at free
      cases free
    have earlier := Run.sphere_lt_of_placeAll Growth.layered_ofOrder none placed among
    exact earlier
  · rw [sphereCount]
    exact Growth.length_spheres_pos
  · intro sphere
    rw [sphereCount, ← spheresItems]
    exact Growth.exists_sphere_iff_ofOrder
  · exact congrArg Outcome.unreachable reported
  · exact congrArg Outcome.finalState reported

end Randomizer
