import Randomizer.Proofs.Binary32.Multiple
import Randomizer.Proofs.Placement.Order

/-!
Selection under the scaled transform. A pool is ordered by priority, but a location that became
reachable later has a smaller penalty, so a scan that leaves a pool early may leave out a location
of lower adjusted priority. Only shallower locations in front of it hide it.
-/

namespace Randomizer

/-- What ranks above a satisfying candidate has no higher adjusted priority. -/
theorem Candidate.signed_le_of_rank_le {μ : Type} {first second : Candidate μ}
    (satisfied : second.satisfied) (ranked : first.rank ≤ second.rank) :
    first.adjusted.signed ≤ second.adjusted.signed := by
  rcases Candidate.rank_le_iff.1 ranked with ⟨_, violated⟩ | ⟨_, lower | ⟨same, _⟩⟩
  · rw [satisfied] at violated
    cases violated
  · exact lower.le
  · exact same.le

namespace Strategy

variable {σ ι μ : Type} [Participant μ]

/-- A strategy without constraints that penalizes shallow locations, with its pools in order and
finite priorities in them. -/
structure Penalizes (factor : Binary32) (strategy : Strategy σ ι μ) : Prop where
  isNumber : factor.isNaN = false
  nonneg : 0 ≤ factor.signed
  transform : strategy.transform = Transform.scaled factor
  constraints : strategy.constraints = []
  ordered : strategy.Ordered
  finite : ∀ location ∈ strategy.forward.locations, (Participant.priority location).IsFinite

/-- A candidate hides a later one of its pool that is deeper, where its own depth is penalized. -/
structure Hides (priorityDepth : Nat) (earlier other : Candidate μ) : Prop where
  pool : earlier.pool = other.pool
  index : earlier.index < other.index
  shallower : Participant.sphere earlier.location < Participant.sphere other.location
  penalized : Participant.sphere earlier.location < priorityDepth

namespace Penalizes

variable {factor : Binary32} {strategy : Strategy σ ι μ} (penalizes : strategy.Penalizes factor)
include penalizes

/-- The scaled transform adds the factor for each sphere that a location is too shallow by. -/
theorem adjusted_eq (depth priorityDepth : Nat) (location : μ) :
    strategy.adjusted depth priorityDepth location =
      if Participant.sphere location < priorityDepth then
        Participant.priority location +
          factor * Binary32.ofNat (priorityDepth - Participant.sphere location)
      else Participant.priority location := by
  rw [adjusted, penalizes.transform]
  rfl

section Depths

variable {priorityDepth : Nat} (counted : priorityDepth ≤ Nat.pow 2 64) (depth : Nat)
include counted

/-- No adjusted priority of a finite location is not a number. -/
theorem isNaN_adjusted {location : μ} (member : location ∈ strategy.forward.locations) :
    (strategy.adjusted depth priorityDepth location).isNaN = false := by
  have finite := penalizes.finite location member
  rw [penalizes.adjusted_eq]
  split
  · next shallow =>
    exact (Binary32.add_of_finite finite (Binary32.isNaN_mul_ofNat penalizes.isNumber
      (Nat.sub_pos_of_lt shallow) ((Nat.sub_le _ _).trans counted))).2
  · exact finite.isNaN

/-- A location that is not shallower has no larger penalty. -/
theorem signed_adjusted_le {first second : μ} (memberFirst : first ∈ strategy.forward.locations)
    (memberSecond : second ∈ strategy.forward.locations)
    (below : (Participant.priority first).signed ≤ (Participant.priority second).signed)
    (deep : Participant.sphere first < priorityDepth →
      Participant.sphere second ≤ Participant.sphere first) :
    (strategy.adjusted depth priorityDepth first).signed ≤
      (strategy.adjusted depth priorityDepth second).signed := by
  have finite := penalizes.finite first memberFirst
  have secondFinite := penalizes.finite second memberSecond
  have multiple {count : Nat} (positive : 0 < count) (small : count ≤ priorityDepth) :
      (factor * Binary32.ofNat count).isNaN = false :=
    Binary32.isNaN_mul_ofNat penalizes.isNumber positive (small.trans counted)
  rw [penalizes.adjusted_eq, penalizes.adjusted_eq]
  by_cases shallow : Participant.sphere first < priorityDepth
  · have notDeeper := deep shallow
    have positive := Nat.sub_pos_of_lt shallow
    have secondShallow := Nat.lt_of_le_of_lt notDeeper shallow
    have penalty := multiple positive (Nat.sub_le _ _)
    have larger := multiple (Nat.sub_pos_of_lt secondShallow) (Nat.sub_le _ _)
    rw [if_pos shallow, if_pos secondShallow]
    calc (Participant.priority first +
          factor * Binary32.ofNat (priorityDepth - Participant.sphere first)).signed
        ≤ (Participant.priority second +
          factor * Binary32.ofNat (priorityDepth - Participant.sphere first)).signed :=
        Binary32.signed_add_mono below (Binary32.add_of_finite finite penalty).2
          (Binary32.add_of_finite secondFinite penalty).2
      _ ≤ (Participant.priority second +
          factor * Binary32.ofNat (priorityDepth - Participant.sphere second)).signed := by
        refine Binary32.signed_add_mono_right secondFinite penalty larger ?_
        exact Binary32.signed_mul_ofNat_mono penalizes.isNumber penalizes.nonneg positive
          (Nat.sub_le_sub_left notDeeper _) ((Nat.sub_le _ _).trans counted)
  · rw [if_neg shallow]
    split
    · next secondShallow =>
      have positive := Nat.sub_pos_of_lt secondShallow
      have larger := multiple positive (Nat.sub_le _ _)
      refine below.trans (Binary32.signed_le_add secondFinite larger ?_)
      exact Binary32.signed_mul_ofNat_nonneg penalizes.isNumber penalizes.nonneg positive
        ((Nat.sub_le _ _).trans counted)
    · exact below

end Depths

variable [Participant ι]

/-- Without constraints every candidate satisfies them. -/
theorem satisfied {depth : Nat} {item : ι} {candidate : Candidate μ}
    (offers : strategy.Offers .forward depth item candidate) : candidate.satisfied := by
  rw [congrArg Candidate.satisfied offers.judged, judge, satisfies, penalizes.constraints]
  rfl

/-- No candidate in front of another one in its pool has a higher adjusted priority, unless it
hides the other. -/
theorem hides_of_lt {depth : Nat} {item : ι}
    (counted : strategy.priorityDepth .forward item ≤ Nat.pow 2 64) {earlier other : Candidate μ}
    (offersEarlier : strategy.Offers .forward depth item earlier)
    (offers : strategy.Offers .forward depth item other)
    (here : earlier.pool = other.pool) (before : earlier.index < other.index)
    (lower : other.adjusted.signed < earlier.adjusted.signed) :
    Hides (strategy.priorityDepth .forward item) earlier other := by
  have kept : ∀ pool ∈ (strategy.side .forward).pools,
      pool.items.Pairwise fun first second => Participant.order first second ≠ .gt :=
    penalizes.ordered.forward
  have notAbove := offersEarlier.relates kept offers here before
  have priorities := Binary32.signed_le_of_compareTotal fun above => notAbove (by
    rw [Participant.order, above]
    rfl)
  rw [offers.adjusted_eq, offersEarlier.adjusted_eq] at lower
  have notDeep := mt (penalizes.signed_adjusted_le counted depth offersEarlier.location_mem
    offers.location_mem priorities) (Int.not_le.2 lower)
  rw [Classical.not_imp, Nat.not_le] at notDeep
  exact ⟨here, before, notDeep.2, notDeep.1⟩

/-- A selection takes a location of the lowest adjusted priority, but for locations that are hidden
by another one of no lower adjusted priority than the one taken. -/
theorem exists_select (counted : strategy.recordedSpheres ≤ Nat.pow 2 64) (depth : Nat)
    (group : String) (item : ι) (remaining : strategy.remainingLocations ≠ 0) :
    ∃ best next, strategy.Offers .forward depth item best ∧
      select depth group item strategy = .ok best.location next ∧
      next.forward = strategy.forward.remove best.pool best.index ∧
      ∀ other, strategy.Offers .forward depth item other →
        best.adjusted.signed ≤ other.adjusted.signed ∨
        ∃ earlier, strategy.Offers .forward depth item earlier ∧
          best.adjusted.signed ≤ earlier.adjusted.signed ∧
          Hides (strategy.priorityDepth .forward item) earlier other := by
  have countedDepth : strategy.priorityDepth .forward item ≤ Nat.pow 2 64 :=
    (SortedList.countUpTo_le_size _ _).trans counted
  have numbers : ∀ location ∈ (strategy.side .forward).locations,
      (strategy.adjusted depth (strategy.priorityDepth .forward item) location).isNaN = false :=
    fun location member => penalizes.isNaN_adjusted countedDepth depth member
  have remainingForward : (strategy.side .forward).remaining ≠ 0 := remaining
  obtain ⟨examined, covers, holds⟩ := exists_covers_scan item numbers
  obtain ⟨best, held⟩ := exists_best_scan depth item remainingForward
  obtain ⟨isExamined, least⟩ := holds.least best held
  have lowest (other : Candidate μ) (examinedOther : examined other) :
      best.adjusted.signed ≤ other.adjusted.signed :=
    Candidate.signed_le_of_rank_le (penalizes.satisfied (covers.within other examinedOther))
      (least other examinedOther)
  have accepted : Constraint.reject strategy.constraints item best.location strategy.memory =
      .ok () strategy.memory := by
    rw [penalizes.constraints]
    rfl
  obtain ⟨next, taken, removed⟩ := selectFrom_of_best group held accepted
  refine ⟨best, next, covers.within best isExamined, taken, removed, fun other offers => ?_⟩
  rcases covers.passed other offers with here | ⟨earlier, examinedEarlier, _, here, before⟩
  · exact .inl (lowest other here)
  · rcases Int.lt_or_le other.adjusted.signed earlier.adjusted.signed with lower | notLower
    · have offersEarlier := covers.within earlier examinedEarlier
      exact .inr ⟨earlier, offersEarlier, lowest earlier examinedEarlier,
        penalizes.hides_of_lt countedDepth offersEarlier offers here before lower⟩
    · exact .inl ((lowest earlier examinedEarlier).trans notLower)

/-- A sphere with finite priorities keeps the strategy as it is described. -/
theorem place {sphere : Sphere ι μ} {placements : List (Placement ι μ)} {next : Strategy σ ι μ}
    (finite : ∀ location ∈ sphere.locations, (Participant.priority location).IsFinite)
    (ran : place sphere strategy = .ok placements next) : next.Penalizes factor where
  isNumber := penalizes.isNumber
  nonneg := penalizes.nonneg
  transform := (keeps_placeSphere (Stable.transform .forward _) sphere).ok ran penalizes.transform
  constraints :=
    (keeps_placeSphere (Stable.constraints .forward _) sphere).ok ran penalizes.constraints
  ordered := (keeps_placeSphere (Stable.ordered .forward) sphere).ok ran penalizes.ordered
  finite := by
    intro location member
    have among := (placed_placeSphere ran).locations.mem_iff.2 (List.mem_append_right _ member)
    rcases List.mem_append.1 among with before | fresh
    · exact penalizes.finite location before
    · exact finite location fresh

/-- Spheres with finite priorities keep the penalty in place. -/
theorem placeAll {spheres : List (Sphere ι μ)} {placements : List (List (Placement ι μ))}
    {next : Strategy σ ι μ} (finite : ∀ sphere ∈ spheres, ∀ location ∈ sphere.locations,
      (Participant.priority location).IsFinite)
    (ran : spheres.mapM Strategy.place strategy = .ok placements next) :
    next.Penalizes factor := by
  induction spheres generalizing strategy placements with
  | nil =>
      cases ran
      exact penalizes
  | cons sphere rest ih =>
      rw [List.mapM_cons] at ran
      obtain ⟨first, middle, ranFirst, continued⟩ := EStateM.bind_eq_ok_iff.1 ran
      obtain ⟨others, last, ranRest, collected⟩ := EStateM.bind_eq_ok_iff.1 continued
      cases collected
      exact ih (penalizes.place (finite sphere (by simp)) ranFirst)
        (fun other member => finite other (by simp [member])) ranRest

end Penalizes

/-- A new strategy with a scaled transform penalizes by its factor. -/
theorem penalizes_create {factor : Binary32} (isNumber : factor.isNaN = false)
    (nonneg : 0 ≤ factor.signed) (memory : σ) :
    (create (Transform.scaled factor) [] memory : Strategy σ ι μ).Penalizes factor where
  isNumber := isNumber
  nonneg := nonneg
  transform := rfl
  constraints := rfl
  ordered := ordered_create _ _ _
  finite := nofun

/-- Under the scaled transform and without constraints, after any spheres that were placed, as many
as a word counts: while locations are left, the selected one has the lowest adjusted priority of all
that are not hidden. A location is hidden by a shallower one that stands before it in the order of
its pool and that has no lower adjusted priority than the one selected. -/
theorem select_scaled [Participant ι] {factor : Binary32} (isNumber : factor.isNaN = false)
    (nonneg : 0 ≤ factor.signed) {memory : σ} {spheres : List (Sphere ι μ)}
    {placements : List (List (Placement ι μ))} {strategy : Strategy σ ι μ}
    (placed : spheres.mapM place (create (Transform.scaled factor) [] memory) =
      .ok placements strategy)
    (finite : ∀ sphere ∈ spheres, ∀ location ∈ sphere.locations,
      (Participant.priority location).IsFinite)
    (counted : strategy.recordedSpheres ≤ Nat.pow 2 64) (depth : Nat) (group : String) (item : ι)
    (remaining : strategy.remainingLocations ≠ 0) :
    ∃ best next, strategy.Offers .forward depth item best ∧
      select depth group item strategy = .ok best.location next ∧
      next.forward = strategy.forward.remove best.pool best.index ∧
      ∀ other, strategy.Offers .forward depth item other →
        best.adjusted.signed ≤ other.adjusted.signed ∨
        ∃ earlier, strategy.Offers .forward depth item earlier ∧
          best.adjusted.signed ≤ earlier.adjusted.signed ∧
          Hides (strategy.priorityDepth .forward item) earlier other :=
  ((penalizes_create isNumber nonneg memory).placeAll finite placed).exists_select counted depth
    group item remaining

/-- A pool with a shallow location in front of a deeper one. -/
def shelf : Sphere WorldItem WorldLocation :=
  ⟨0, "world", [],
    [spot "near" ⟨0x3E800000⟩, { spot "far" ⟨0x3F000000⟩ with sphere := 1 }], false⟩

def shelved : Strategy Unit WorldItem WorldLocation :=
  { create (Transform.scaled ⟨0x3F800000⟩) [] () with
    forward := ⟨[⟨shelf.locations⟩], ⟨[Binary32.infinity true]⟩⟩ }

/-- The shelf is placed with nothing on it. -/
theorem place_shelf : [shelf].mapM place (create (Transform.scaled ⟨0x3F800000⟩) [] ()) =
    .ok [[]] shelved := by
  have sorted : (SortedList.ofList shelf.locations : Pool WorldLocation) = ⟨shelf.locations⟩ :=
    congrArg SortedList.mk (List.mergeSort_of_pairwise (by decide))
  change EStateM.Result.ok [[]] { create (Transform.scaled ⟨0x3F800000⟩) [] () with
    forward := ⟨[SortedList.ofList shelf.locations], ⟨[Binary32.infinity true]⟩⟩ } = _
  rw [sorted]
  rfl

/-- The candidate that is taken from the shelf is the least but for those that another hides. -/
theorem select_scaled_shelf : ∃ (best : Candidate WorldLocation)
    (next : Strategy Unit WorldItem WorldLocation),
    select 1 "world" (WorldItem.ofItem (.empty "key")) shelved = .ok best.location next ∧
      ∀ other, shelved.Offers .forward 1 (WorldItem.ofItem (.empty "key")) other →
        best.adjusted.signed ≤ other.adjusted.signed ∨
        ∃ earlier, shelved.Offers .forward 1 (WorldItem.ofItem (.empty "key")) earlier ∧
          best.adjusted.signed ≤ earlier.adjusted.signed ∧
          Hides (shelved.priorityDepth .forward (WorldItem.ofItem (.empty "key")))
            earlier other := by
  have isNumber : (⟨0x3F800000⟩ : Binary32).isNaN = false := by decide
  have nonneg : 0 ≤ (⟨0x3F800000⟩ : Binary32).signed := by decide
  have finite : ∀ sphere ∈ [shelf], ∀ location ∈ sphere.locations,
      (Participant.priority location).IsFinite := by
    simp only [List.mem_singleton, forall_eq]
    decide
  have counted : shelved.recordedSpheres ≤ Nat.pow 2 64 := by decide
  have remaining : shelved.remainingLocations ≠ 0 := by decide
  obtain ⟨best, next, _, taken, _, lowest⟩ := select_scaled isNumber nonneg place_shelf finite
    counted 1 "world" (WorldItem.ofItem (.empty "key")) remaining
  exact ⟨best, next, taken, lowest⟩

/-- The candidate that a location at a place of the shelf is for a key. -/
def onShelf (index : Nat) (location : WorldLocation) : Candidate WorldLocation :=
  shelved.judge (WorldItem.ofItem (.empty "key")) 1
    (shelved.priorityDepth .forward (WorldItem.ofItem (.empty "key"))) 0 index location

/-- The near location of the shelf is selected, and the far one that it hides is lower. -/
theorem select_shelf_not_lowest :
    [shelf].mapM place (create (Transform.scaled ⟨0x3F800000⟩) [] ()) = .ok [[]] shelved ∧
    ∃ best next other,
      shelved.Offers .forward 1 (WorldItem.ofItem (.empty "key")) best ∧
      select 1 "world" (WorldItem.ofItem (.empty "key")) shelved = .ok best.location next ∧
      shelved.Offers .forward 1 (WorldItem.ofItem (.empty "key")) other ∧
      other.adjusted.less best.adjusted := by
  have offersNear : shelved.Offers .forward 1 (WorldItem.ofItem (.empty "key"))
      (onShelf 0 (spot "near" ⟨0x3E800000⟩)) :=
    ⟨⟨_, rfl, rfl⟩, rfl⟩
  have offersFar : shelved.Offers .forward 1 (WorldItem.ofItem (.empty "key"))
      (onShelf 1 { spot "far" ⟨0x3F000000⟩ with sphere := 1 }) :=
    ⟨⟨_, rfl, rfl⟩, rfl⟩
  have held : (shelved.scan .forward 1 (WorldItem.ofItem (.empty "key"))).best =
      some (onShelf 0 (spot "near" ⟨0x3E800000⟩)) := rfl
  have accepted : Constraint.reject shelved.constraints (WorldItem.ofItem (.empty "key"))
      (onShelf 0 (spot "near" ⟨0x3E800000⟩)).location shelved.memory = .ok () () := rfl
  obtain ⟨next, taken, _⟩ := selectFrom_of_best "world" held accepted
  exact ⟨place_shelf, _, next, _, offersNear, taken, offersFar, by decide⟩

end Strategy

end Randomizer
