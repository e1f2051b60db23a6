import Randomizer.Proofs.Placement.Ledger
import Randomizer.Proofs.Placement.Order

/-!
Placement without constraints as a merge. Under the identity transform the items of a sphere get the
first locations of a stable sort by priority of all pools together, the oldest pool first, and each
pool keeps what is left of it. So the item-by-item scans with their early exits are one sort.
-/

namespace Randomizer

section StableSort

variable {α : Type} {le : α → α → Bool}
  (trans : ∀ first second third, le first second → le second third → le first third)
  (total : ∀ first second, le first second || le second first)
include trans total

/-- An element in front of a list is sorted in after what is below it and before all others. -/
theorem mergeSort_cons_eq (first : α) (rest : List α) :
    (first :: rest).mergeSort le =
      (rest.mergeSort le).filter (fun item => !le first item) ++
        first :: (rest.mergeSort le).filter fun item => le first item := by
  obtain ⟨below, others, sorted, split, lower⟩ := List.mergeSort_cons trans total first rest
  have ascending := List.pairwise_mergeSort trans total (first :: rest)
  rw [sorted] at ascending
  have above : ∀ item ∈ others, le first item :=
    (List.pairwise_cons.1 (List.pairwise_append.1 ascending).2.1).1
  have notLower : others.filter (fun item => !le first item) = [] :=
    List.filter_eq_nil_iff.2 fun item member => by simp [above item member]
  have notAbove : below.filter (fun item => le first item) = [] :=
    List.filter_eq_nil_iff.2 fun item member => by simpa using lower item member
  rw [sorted, split, List.filter_append, List.filter_append, notLower, notAbove,
    List.filter_eq_self.2 lower, List.filter_eq_self.2 above, List.append_nil, List.nil_append]

/-- What is below all that stands before it and not above anything after it comes first, and the
others are sorted as if it were not there. The induction is on what stands before it. -/
theorem mergeSort_append_cons {before after : List α} {item : α}
    (lower : ∀ earlier ∈ before, ¬ le earlier item) (notAbove : ∀ later ∈ after, le item later) :
    (before ++ item :: after).mergeSort le = item :: (before ++ after).mergeSort le := by
  induction before with
  | nil =>
      have all : ∀ later ∈ after.mergeSort le, le item later :=
        fun later member => notAbove later (List.mem_mergeSort.1 member)
      have none : (after.mergeSort le).filter (fun later => !le item later) = [] :=
        List.filter_eq_nil_iff.2 fun later member => by simp [all later member]
      rw [List.nil_append, List.nil_append, mergeSort_cons_eq trans total, none,
        List.filter_eq_self.2 all, List.nil_append]
  | cons first rest ih =>
      obtain ⟨above, aboveRest⟩ := List.forall_mem_cons.1 lower
      rw [List.cons_append, mergeSort_cons_eq trans total, ih aboveRest,
        List.filter_cons_of_pos (by simpa using above), List.filter_cons_of_neg above,
        List.cons_append, ← mergeSort_cons_eq trans total, List.cons_append]

end StableSort

section Merging

variable {μ : Type} [Participant μ]

/-- The numeric order of priorities, in which both zeros tie. -/
def Participant.notAbove (first second : μ) : Bool :=
  (priority first).signed ≤ (priority second).signed

/-- One location is not above another just if its priority is not. -/
theorem Participant.notAbove_iff {first second : μ} :
    notAbove first second ↔ (priority first).signed ≤ (priority second).signed :=
  decide_eq_true_iff

/-- The locations of pools with the positions of the pools, which are numbered from the given one
on. -/
def taggedFrom (position : Nat) : List (List μ) → List (μ × Nat)
  | [] => []
  | pool :: rest => pool.map (·, position) ++ taggedFrom (position + 1) rest

/-- The locations of pools, those of the oldest pool first, in a stable sort by priority. -/
def merged (pools : List (List μ)) : List (μ × Nat) :=
  (taggedFrom 0 pools).mergeSort fun first second => Participant.notAbove first.1 second.1

/-- What is left of each pool once a number of locations is taken from the front of the merge. -/
def leftOver (count : Nat) (pools : List (List μ)) : List (List μ) :=
  pools.mapIdx fun position pool =>
    pool.drop (((merged pools).take count).countP fun location => location.2 == position)

omit [Participant μ] in
/-- The tags leave the locations in their order. -/
theorem map_fst_taggedFrom (position : Nat) (pools : List (List μ)) :
    (taggedFrom position pools).map Prod.fst = pools.flatten := by
  induction pools generalizing position with
  | nil => rfl
  | cons pool rest ih =>
      rw [taggedFrom, List.map_append, ih, List.map_map, List.flatten_cons]
      exact congrArg (· ++ rest.flatten) (List.map_id pool)

omit [Participant μ] in
/-- Newer pools are tagged after the older ones. -/
theorem taggedFrom_append (position : Nat) (older newer : List (List μ)) :
    taggedFrom position (older ++ newer) =
      taggedFrom position older ++ taggedFrom (position + older.length) newer := by
  induction older generalizing position with
  | nil => rfl
  | cons pool rest ih =>
      rw [List.cons_append, taggedFrom, taggedFrom, ih, List.append_assoc, List.length_cons,
        Nat.add_right_comm, Nat.add_assoc]

/-- The merged locations are all locations in a stable sort. -/
theorem map_fst_merged (pools : List (List μ)) :
    (merged pools).map Prod.fst = pools.flatten.mergeSort Participant.notAbove := by
  rw [merged, ← map_fst_taggedFrom 0 pools]
  exact List.map_mergeSort fun _ _ _ _ => rfl

/-- The head of a pool that is below all older pools and not above anything else leads the merge. -/
theorem merged_eq_cons {older newer : List (List μ)} {location : μ} {rest : List μ}
    (lower : ∀ other ∈ older.flatten, ¬ Participant.notAbove other location)
    (notAbove : ∀ other ∈ rest ++ newer.flatten, Participant.notAbove location other) :
    merged (older ++ (location :: rest) :: newer) =
      (location, older.length) :: merged (older ++ rest :: newer) := by
  rw [merged, merged, taggedFrom_append, taggedFrom_append, taggedFrom, taggedFrom, List.map_cons,
    List.cons_append, Nat.zero_add]
  have total (first second : μ) :
      Participant.notAbove first second || Participant.notAbove second first := by
    simp only [Bool.or_eq_true, Participant.notAbove_iff]
    exact Int.le_total _ _
  have trans (first second third : μ) (below : Participant.notAbove first second)
      (next : Participant.notAbove second third) : Participant.notAbove first third :=
    Participant.notAbove_iff.2 <|
      Int.le_trans (Participant.notAbove_iff.1 below) (Participant.notAbove_iff.1 next)
  have mem {position : Nat} {pools : List (List μ)} {tagged : μ × Nat}
      (member : tagged ∈ taggedFrom position pools) : tagged.1 ∈ pools.flatten := by
    rw [← map_fst_taggedFrom position]
    exact List.mem_map_of_mem member
  refine mergeSort_append_cons
    (fun first second third : μ × Nat => trans first.1 second.1 third.1)
    (fun first second => total first.1 second.1) ?_ ?_
  · exact fun earlier member => lower _ (mem member)
  · intro later member
    rcases List.mem_append.1 member with here | beyond
    · obtain ⟨other, inRest, rfl⟩ := List.mem_map.1 here
      exact notAbove other (List.mem_append_left _ inRest)
    · exact notAbove _ (List.mem_append_right _ (mem beyond))

/-- With nothing taken all is left. -/
theorem leftOver_zero (pools : List (List μ)) : leftOver 0 pools = pools := by
  refine List.ext_getElem? fun position => ?_
  rw [leftOver, List.getElem?_mapIdx]
  cases pools[position]? <;> rfl

/-- Once the first location is gone, the others are taken from what is left. -/
theorem leftOver_succ {older newer : List (List μ)} {location : μ} {rest : List μ} (count : Nat)
    (leads : merged (older ++ (location :: rest) :: newer) =
      (location, older.length) :: merged (older ++ rest :: newer)) :
    leftOver (count + 1) (older ++ (location :: rest) :: newer) =
      leftOver count (older ++ rest :: newer) := by
  refine List.ext_getElem? fun position => ?_
  rw [leftOver, leftOver, List.getElem?_mapIdx, List.getElem?_mapIdx, leads, List.take_succ_cons,
    List.countP_cons]
  by_cases here : older.length = position
  · subst here
    rw [List.getElem?_append_right (Nat.le_refl _), List.getElem?_append_right (Nat.le_refl _),
      Nat.sub_self, List.getElem?_cons_zero, List.getElem?_cons_zero, Option.map_some,
      Option.map_some, if_pos (beq_self_eq_true _), List.drop_succ_cons]
  · have same : (older ++ (location :: rest) :: newer)[position]? =
        (older ++ rest :: newer)[position]? := by
      rcases Nat.lt_or_gt_of_ne here with beyond | before
      · obtain ⟨distance, rfl⟩ := Nat.exists_eq_add_of_lt beyond
        rw [Nat.add_assoc, List.getElem?_append_right (Nat.le_add_right _ _),
          List.getElem?_append_right (Nat.le_add_right _ _), Nat.add_sub_cancel_left,
          List.getElem?_cons_succ, List.getElem?_cons_succ]
      · rw [List.getElem?_append_left before, List.getElem?_append_left before]
    rw [same, if_neg (mt beq_iff_eq.1 here), Nat.add_zero]

end Merging

namespace Strategy

variable {σ ι μ : Type} [Participant ι] [Participant μ]

/-- The free forward locations, pool by pool. -/
def shelves (strategy : Strategy σ ι μ) : List (List μ) :=
  strategy.forward.pools.map SortedList.items

omit [Participant ι] in
/-- The shelves have the free forward locations, in order. -/
theorem flatten_shelves (strategy : Strategy σ ι μ) :
    strategy.shelves.flatten = strategy.forward.locations :=
  List.flatMap_def.symm

omit [Participant ι] in
/-- Every location of some pools has a place in one of them. -/
theorem exists_place {pools : List (Pool μ)} {location : μ}
    (member : location ∈ (pools.map SortedList.items).flatten) :
    ∃ position index : Nat, ∃ pool : Pool μ, pools[position]? = some pool ∧
      pool.items[index]? = some location := by
  rw [← List.flatMap_def] at member
  obtain ⟨pool, memberPool, inPool⟩ := List.mem_flatMap.1 member
  obtain ⟨position, found⟩ := List.mem_iff_getElem?.1 memberPool
  obtain ⟨index, inside⟩ := List.mem_iff_getElem?.1 inPool
  exact ⟨position, index, pool, found, inside⟩

/-- A strategy without constraints that leaves priorities as they are, with its pools in order and
numbers for priorities. -/
structure Plain (strategy : Strategy σ ι μ) : Prop where
  transform : strategy.transform = Transform.identity
  constraints : strategy.constraints = []
  ordered : strategy.Ordered
  numbers : ∀ location ∈ strategy.forward.locations,
    (Participant.priority location).isNaN = false

/-- A location is in its place among the pools, and it is lowest there: no free location is lower,
and none that a scan comes to before it is as low. -/
structure LowestAt (strategy : Strategy σ ι μ) (position index : Nat) (location : μ) : Prop where
  within : ∃ pool, strategy.forward.pools[position]? = some pool ∧
    pool.items[index]? = some location
  lowest : ∀ otherPosition otherIndex pool other,
    strategy.forward.pools[otherPosition]? = some pool → pool.items[otherIndex]? = some other →
      (Participant.priority location).signed < (Participant.priority other).signed ∨
      (Participant.priority location).signed = (Participant.priority other).signed ∧
        (position < otherPosition ∨ position = otherPosition ∧ index ≤ otherIndex)

namespace Plain

variable {strategy next : Strategy σ ι μ} (plain : strategy.Plain)
include plain

omit [Participant ι] in
/-- A plain strategy has pools that do not fall in adjusted priority. -/
theorem ascends (depth priorityDepth : Nat) :
    ∀ pool ∈ (strategy.side .forward).pools,
      strategy.Ascends depth priorityDepth pool.items := by
  intro pool member
  refine ascends_of_identity (plain.ordered.forward pool member) (fun location inPool => ?_)
    plain.transform
  rw [Strategy.adjusted, plain.transform]
  exact plain.numbers location (List.mem_flatMap.2 ⟨pool, member, inPool⟩)

/-- Nothing but the numeric order of priorities, the age of a pool and the place in it decides. -/
theorem rank_le_iff {depth : Nat} {item : ι} {first second : Candidate μ}
    (offersFirst : strategy.Offers .forward depth item first)
    (offersSecond : strategy.Offers .forward depth item second) :
    first.rank ≤ second.rank ↔
      (Participant.priority first.location).signed <
          (Participant.priority second.location).signed ∨
        (Participant.priority first.location).signed =
            (Participant.priority second.location).signed ∧
          (first.pool < second.pool ∨
            first.pool = second.pool ∧ first.index ≤ second.index) := by
  have satisfied {candidate : Candidate μ}
      (offers : strategy.Offers .forward depth item candidate) : candidate.satisfied = true := by
    rw [congrArg Candidate.satisfied offers.judged, judge, satisfies, plain.constraints]
    rfl
  have adjusted {candidate : Candidate μ}
      (offers : strategy.Offers .forward depth item candidate) :
      candidate.adjusted = Participant.priority candidate.location := by
    rw [offers.adjusted_eq, Strategy.adjusted, plain.transform]
    rfl
  rw [Candidate.rank_le_iff, satisfied offersFirst, satisfied offersSecond, adjusted offersFirst,
    adjusted offersSecond]
  simp

/-- A selection takes the lowest location out of its place. -/
theorem exists_lowestAt {depth : Nat} {group : String} {item : ι} {location : μ}
    (ran : selectFrom .forward depth group item strategy = .ok location next) :
    ∃ position index, strategy.LowestAt position index location ∧
      next.forward = strategy.forward.remove position index := by
  have remaining : (strategy.side .forward).remaining ≠ 0 := by
    have counted := (locations_selectFrom ran).length_eq
    exact Nat.ne_of_gt (Nat.lt_of_lt_of_eq (Nat.succ_pos _) counted.symm)
  obtain ⟨best, offered, least, selected⟩ :=
    selectFrom_least group item (plain.ascends depth _) remaining
  have accepted : Constraint.reject strategy.constraints item best.location strategy.memory =
      .ok () strategy.memory := by
    rw [plain.constraints]
    rfl
  obtain ⟨last, took, removed⟩ := selected _ accepted
  rw [ran] at took
  cases took
  refine ⟨best.pool, best.index, ⟨offered.within, ?_⟩, removed⟩
  intro otherPosition otherIndex pool other found inside
  have offers : strategy.Offers .forward depth item (strategy.judge item depth
      (strategy.priorityDepth .forward item) otherPosition otherIndex other) :=
    ⟨⟨pool, found, inside⟩, rfl⟩
  exact (plain.rank_le_iff offered offers).1 (least _ offers)

omit [Participant ι] in
/-- The lowest location is the head of its pool. -/
theorem index_eq_zero {position index : Nat} {location : μ}
    (lowestAt : strategy.LowestAt position index location) : index = 0 := by
  obtain ⟨pool, found, inside⟩ := lowestAt.within
  obtain ⟨bound, here⟩ := List.getElem?_eq_some_iff.1 inside
  by_contra later
  have positive : 0 < index := Nat.pos_of_ne_zero later
  have nonempty := Nat.lt_trans positive bound
  have notAbove := List.pairwise_iff_getElem.1
    (plain.ordered.forward pool (List.mem_of_getElem? found)) 0 index nonempty bound positive
  rw [here] at notAbove
  have below := Binary32.signed_le_of_compareTotal fun above => notAbove (by
    rw [Participant.order, above]
    rfl)
  rcases lowestAt.lowest position 0 pool _ found (List.getElem?_eq_getElem nonempty) with
    lower | ⟨_, earlier | ⟨_, atHead⟩⟩
  · exact absurd lower (Int.not_lt.2 below)
  · exact absurd earlier (Nat.lt_irrefl _)
  · exact later (Nat.le_zero.1 atHead)

/-- A selection takes the head of a pool, the first location of the merge, and leaves the other
locations in their places. -/
theorem exists_head {depth : Nat} {group : String} {item : ι} {location : μ}
    (ran : selectFrom .forward depth group item strategy = .ok location next) :
    ∃ older rest newer, strategy.shelves = older ++ (location :: rest) :: newer ∧
      next.shelves = older ++ rest :: newer ∧
      merged strategy.shelves = (location, older.length) :: merged next.shelves := by
  obtain ⟨position, index, lowestAt, removed⟩ := plain.exists_lowestAt ran
  obtain rfl := plain.index_eq_zero lowestAt
  obtain ⟨pool, found, inside⟩ := lowestAt.within
  have items : pool.items = location :: (pool.eraseIndex 0).items :=
    SortedList.items_of_min? (by rw [SortedList.min?, List.head?_eq_getElem?, inside])
  obtain ⟨bound, here⟩ := List.getElem?_eq_some_iff.1 found
  have before : strategy.shelves = (strategy.forward.pools.take position).map SortedList.items ++
      (location :: (pool.eraseIndex 0).items) ::
        (strategy.forward.pools.drop (position + 1)).map SortedList.items := by
    rw [← items, ← here, ← List.map_cons, ← List.drop_eq_getElem_cons bound, ← List.map_append,
      List.take_append_drop]
    rfl
  have after : next.shelves = (strategy.forward.pools.take position).map SortedList.items ++
      (pool.eraseIndex 0).items ::
        (strategy.forward.pools.drop (position + 1)).map SortedList.items := by
    rw [shelves, removed, Side.remove, List.modify_eq_take_cons_drop bound, here, List.map_append,
      List.map_cons]
  refine ⟨_, _, _, before, after, ?_⟩
  rw [before, after]
  refine merged_eq_cons (fun other member notAbove => ?_) (fun other member => ?_)
  · obtain ⟨otherPosition, otherIndex, otherPool, foundOlder, insideOther⟩ := exists_place member
    rw [List.getElem?_take] at foundOlder
    split at foundOlder
    · next older =>
      have lowest := lowestAt.lowest _ _ _ _ foundOlder insideOther
      rw [Participant.notAbove_iff] at notAbove
      omega
    · cases foundOlder
  · rw [Participant.notAbove_iff]
    rcases List.mem_append.1 member with inRest | inNewer
    · obtain ⟨otherIndex, insideOther⟩ := List.mem_iff_getElem?.1 inRest
      have insidePool : pool.items[otherIndex + 1]? = some other := by
        rw [items, List.getElem?_cons_succ, insideOther]
      have lowest := lowestAt.lowest _ _ _ _ found insidePool
      omega
    · obtain ⟨otherPosition, otherIndex, otherPool, foundNewer, insideOther⟩ :=
        exists_place inNewer
      rw [List.getElem?_drop] at foundNewer
      have lowest := lowestAt.lowest _ _ _ _ foundNewer insideOther
      omega

/-- A plain strategy is plain after a selection. -/
theorem selectFrom {depth : Nat} {group : String} {item : ι} {location : μ}
    (ran : selectFrom .forward depth group item strategy = .ok location next) : next.Plain where
  transform :=
    (keeps_selectFrom (.transform .forward _) depth group item).ok ran plain.transform
  constraints :=
    (keeps_selectFrom (.constraints .forward _) depth group item).ok ran plain.constraints
  ordered := (keeps_selectFrom (.ordered .forward) depth group item).ok ran plain.ordered
  numbers := fun other member =>
    plain.numbers other ((locations_selectFrom ran).mem_iff.2 (List.mem_cons_of_mem _ member))

/-- Items take the first locations of the merge one after another. -/
theorem selectAll {depth : Nat} {group : String} {items : List ι}
    {placements : List (Placement ι μ)}
    (ran : selectAll .forward depth group items strategy = .ok placements next) :
    placements.map Placement.location =
        ((merged strategy.shelves).take items.length).map Prod.fst ∧
      next.shelves = leftOver items.length strategy.shelves ∧ next.Plain := by
  induction items generalizing strategy placements with
  | nil =>
      cases ran
      exact ⟨rfl, (leftOver_zero _).symm, plain⟩
  | cons item rest ih =>
      rw [selectAll_cons] at ran
      obtain ⟨location, middle, ranFirst, continued⟩ := EStateM.bind_eq_ok_iff.1 ran
      obtain ⟨others, last, ranRest, collected⟩ := EStateM.bind_eq_ok_iff.1 continued
      cases collected
      obtain ⟨older, left, newer, before, after, leads⟩ := plain.exists_head ranFirst
      obtain ⟨taken, shelves, kept⟩ := ih (plain.selectFrom ranFirst) ranRest
      refine ⟨?_, ?_, kept⟩
      · rw [List.map_cons, taken, leads, List.length_cons, List.take_succ_cons, List.map_cons]
      · rw [before, after] at leads
        rw [shelves, before, after, List.length_cons, leftOver_succ _ leads]

/-- A sphere is placed by the merge. -/
theorem place {sphere : Sphere ι μ} {placements : List (Placement ι μ)}
    (numbers : ∀ location ∈ sphere.locations, (Participant.priority location).isNaN = false)
    (ran : place sphere strategy = .ok placements next) :
    placements = List.zipWith Placement.mk sphere.items
        ((strategy.shelves.flatten.mergeSort Participant.notAbove).take sphere.items.length) ∧
      next.shelves = leftOver sphere.items.length strategy.shelves ++
        [(SortedList.ofList sphere.locations : Pool μ).items] ∧ next.Plain := by
  have placed := placed_placeSphere ran
  rcases strategy.placeSphere_cases .forward sphere with
    ⟨_, middle, selected, completed⟩ | ⟨error, last, _, failed⟩
  · have same := ran.symm.trans completed
    cases same
    obtain ⟨taken, shelves, kept⟩ := plain.selectAll selected
    refine ⟨?_, ?_, ?_⟩
    · rw [← map_fst_merged, ← List.map_take, ← taken, ← placed.items, List.zipWith_map,
        List.zipWith_self]
      exact (List.map_id placements).symm
    · rw [← shelves]
      exact List.map_append
    · exact {
        transform := kept.transform
        constraints := kept.constraints
        ordered := (Stable.ordered .forward).complete middle _ _ kept.ordered
        numbers := by
          intro location member
          have among := (Side.locations_complete _ _ _).mem_iff.1 member
          rcases List.mem_append.1 among with older | fresh
          · exact kept.numbers location older
          · exact numbers location fresh }
  · cases ran.symm.trans failed

end Plain

/-- Spheres placed one after another by the merge alone, starting from the locations of pools. There
are placements only where there is a location for every item. -/
def mergeAll? : List (List μ) → List (Sphere ι μ) →
    Option (List (List (Placement ι μ)) × List (List μ))
  | pools, [] => some ([], pools)
  | pools, sphere :: rest =>
    if sphere.items.length ≤ pools.flatten.length then
      let taken := (pools.flatten.mergeSort Participant.notAbove).take sphere.items.length
      let left := leftOver sphere.items.length pools ++
        [(SortedList.ofList sphere.locations : Pool μ).items]
      (mergeAll? left rest).map fun (placements, last) =>
        (List.zipWith Placement.mk sphere.items taken :: placements, last)
    else none

/-- A plain strategy places spheres just as merging does, with the same pools at the end. -/
theorem Plain.mergeAll?_eq_some_iff {strategy : Strategy σ ι μ} (plain : strategy.Plain)
    {spheres : List (Sphere ι μ)} (numbers : ∀ sphere ∈ spheres, ∀ location ∈ sphere.locations,
      (Participant.priority location).isNaN = false)
    {placements : List (List (Placement ι μ))} {pools : List (List μ)} :
    mergeAll? strategy.shelves spheres = some (placements, pools) ↔
      ∃ next, spheres.mapM Strategy.place strategy = .ok placements next ∧
        next.shelves = pools := by
  induction spheres generalizing strategy placements with
  | nil =>
      constructor
      · rintro ⟨⟩
        exact ⟨strategy, rfl, rfl⟩
      · rintro ⟨next, ⟨⟩, rfl⟩
        rfl
  | cons sphere rest ih =>
      obtain ⟨numbersFirst, numbersRest⟩ := List.forall_mem_cons.1 numbers
      have lenient : ∀ constraint ∈ strategy.constraints, constraint.Lenient := by
        rw [plain.constraints]
        nofun
      have succeeds := (settles_of_lenient lenient (fun _ => id) sphere).succeeds_iff
      rw [remainingLocations, Side.remaining, ← flatten_shelves] at succeeds
      rw [mergeAll?, List.mapM_cons]
      constructor
      · intro merged
        split at merged
        next enough =>
          obtain ⟨first, middle, ranFirst⟩ := succeeds.2 enough
          obtain ⟨given, left, kept⟩ := plain.place numbersFirst ranFirst
          obtain ⟨⟨others, last⟩, mergedRest, same⟩ := Option.map_eq_some_iff.1 merged
          cases same
          rw [← left] at mergedRest
          obtain ⟨next, ranRest, ends⟩ := (ih kept numbersRest).1 mergedRest
          refine ⟨next, ?_, ends⟩
          rw [EStateM.bind_of_ok ranFirst, EStateM.bind_of_ok ranRest, given]
          rfl
        next => cases merged
      · rintro ⟨next, ran, ends⟩
        obtain ⟨first, middle, ranFirst, continued⟩ := EStateM.bind_eq_ok_iff.1 ran
        obtain ⟨others, last, ranRest, collected⟩ := EStateM.bind_eq_ok_iff.1 continued
        cases collected
        obtain ⟨given, left, kept⟩ := plain.place numbersFirst ranFirst
        have mergedRest := (ih kept numbersRest).2 ⟨_, ranRest, ends⟩
        rw [if_pos (succeeds.1 ⟨first, middle, ranFirst⟩)]
        dsimp only
        rw [← left, mergedRest, given]
        rfl

omit [Participant ι] in
/-- A strategy without constraints and with the identity is plain once it is reset. -/
theorem plain_reset {strategy : Strategy σ ι μ} (identity : strategy.transform = .identity)
    (unconstrained : strategy.constraints = []) : strategy.reset.Plain where
  transform := identity
  constraints := unconstrained
  ordered := ordered_reset strategy
  numbers := nofun

/-- Under the identity transform, without constraints and with numbers for priorities, spheres are
placed one after another just as they are merged: the items of each get, in their order, the first
locations of a stable sort by priority of what is left of all pools, the oldest first, and every
pool keeps what is left of it. The priorities of the items have no part in it. -/
theorem mergeAll?_reset_iff {strategy : Strategy σ ι μ} (identity : strategy.transform = .identity)
    (unconstrained : strategy.constraints = []) {spheres : List (Sphere ι μ)}
    (numbers : ∀ sphere ∈ spheres, ∀ location ∈ sphere.locations,
      (Participant.priority location).isNaN = false)
    (placements : List (List (Placement ι μ))) (pools : List (List μ)) :
    (∃ next, spheres.mapM place strategy.reset = .ok placements next ∧
        next.forward.pools.map SortedList.items = pools) ↔
      mergeAll? [] spheres = some (placements, pools) :=
  ((plain_reset identity unconstrained).mergeAll?_eq_some_iff numbers).symm

/-- Two pools of which the newer one has the negative zero. -/
def tides : List (Sphere WorldItem WorldLocation) := [
  ⟨0, "world", [], [spot "ebb" .zero], false⟩,
  ⟨1, "world", [], [spot "flood" .negativeZero], false⟩,
  ⟨2, "world", [.ofItem (.empty "key")], [], false⟩]

/-- The zeros tie, so the older pool gives its location. -/
theorem mergeAll?_reset_iff_tides :
    ∃ next : Strategy Unit WorldItem WorldLocation,
      tides.mapM place (create .identity [] ()).reset =
          .ok [[], [], [⟨.ofItem (.empty "key"), spot "ebb" .zero⟩]] next ∧
        next.forward.pools.map SortedList.items = [[], [spot "flood" .negativeZero], []] := by
  have numbers : ∀ sphere ∈ tides, ∀ location ∈ sphere.locations,
      (Participant.priority location).isNaN = false := by decide
  refine (mergeAll?_reset_iff rfl rfl numbers _ _).2 ?_
  have tie : [spot "ebb" .zero, spot "flood" .negativeZero].mergeSort Participant.notAbove =
      [spot "ebb" .zero, spot "flood" .negativeZero] := List.mergeSort_of_pairwise (by decide)
  have leads : merged [[spot "ebb" .zero], [spot "flood" .negativeZero]] =
      [(spot "ebb" .zero, 0), (spot "flood" .negativeZero, 1)] :=
    List.mergeSort_of_pairwise (by decide)
  have left : leftOver 1 [[spot "ebb" .zero], [spot "flood" .negativeZero]] =
      [[], [spot "flood" .negativeZero]] := by
    rw [leftOver, leads]
    rfl
  simp [tides, mergeAll?, leftOver_zero, tie, left, SortedList.ofList]

end Strategy

end Randomizer
