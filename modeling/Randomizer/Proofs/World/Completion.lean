import Randomizer.Proofs.World.Accumulation
import Randomizer.Proofs.World.Checkpoints

/-!
Playing a report in any order. A player starts with the waypoints settled and collects any placement
whose location is open; in a world that accumulates, the report of a run that succeeds never leaves
the player stuck.
-/

namespace Randomizer

/-- The items of placements, in their order. -/
abbrev itemsOf (placements : List (Placement WorldItem WorldLocation)) : List Item :=
  placements.map fun placement => placement.item.item

/-- A state of a play, with the placements that are collected, the last first, and those that
remain. -/
inductive Report.Play (report : Report) (world : World) (initial : Progression) :
    Progression → (collected remaining : List (Placement WorldItem WorldLocation)) → Prop where
  | start : Play report world initial (world.manager.settle initial) [] report.placements
  | collect {state next : Progression} {placement : Placement WorldItem WorldLocation}
      {collected before after : List (Placement WorldItem WorldLocation)}
      (play : Play report world initial state collected (before ++ placement :: after))
      (isOpen : placement.location.isOpen world.manager.vars state.read)
      (played : world.manager.play placement.item.item state = .ok next) :
      Play report world initial next (placement :: collected) (before ++ after)

/-- A world in which nothing is lost: no progress undoes the logic of a waypoint or a location or a
cost, and items count. -/
structure World.Accumulates (world : World) (initial : Progression) : Prop
    extends world.manager.Accumulates (world.items.map WorldItem.item) initial where
  locations : ∀ location ∈ world.locations,
    Progression.Persists (location.logic.holds world.manager.vars)
  costs : ∀ location ∈ world.locations, ∀ cost ∈ location.costs,
    Progression.Persists (cost.isMet world.manager.vars)

/-- In an ascending list the values up to a bound come first. -/
theorem take_countP_of_ascends {α : Type} (value : α → Nat) (bound : Nat) {list : List α}
    (ascends : (list.map value).Pairwise (· ≤ ·)) :
    list.take (list.countP fun element => value element ≤ bound) =
      list.filter fun element => value element ≤ bound := by
  induction list with
  | nil => rfl
  | cons first rest ih =>
      obtain ⟨least, restAscends⟩ := List.pairwise_cons.1 ascends
      by_cases within : value first ≤ bound
      · rw [List.countP_cons_of_pos (by simpa using within), List.take_succ_cons, ih restAscends,
          List.filter_cons_of_pos (by simpa using within)]
      · have none : rest.filter (fun element => value element ≤ bound) = [] := by
          apply List.filter_eq_nil_iff.2
          intro element member
          have above := least (value element) (List.mem_map_of_mem member)
          simp only [decide_eq_true_eq]
          omega
        have noneFirst : (first :: rest).filter (fun element => value element ≤ bound) = [] := by
          rw [List.filter_cons_of_neg (by simpa using within), none]
        rw [noneFirst, List.countP_eq_length_filter, noneFirst]
        rfl

namespace Report.Play

variable {report : Report} {world : World} {initial state : Progression}
  {collected remaining : List (Placement WorldItem WorldLocation)}

/-- What is collected and what remains make up the report. -/
theorem perm (play : report.Play world initial state collected remaining) :
    (collected ++ remaining).Perm report.placements := by
  induction play with
  | start => exact List.Perm.refl _
  | @collect state next placement collected before after _ _ _ ih =>
      have moved : (placement :: (collected ++ (before ++ after))).Perm
          (collected ++ (before ++ placement :: after)) := by
        rw [← List.append_assoc, ← List.append_assoc]
        exact List.perm_middle.symm
      exact moved.trans ih

/-- What remains is in the report. -/
theorem mem_placements (play : report.Play world initial state collected remaining)
    {placement : Placement WorldItem WorldLocation} (member : placement ∈ remaining) :
    placement ∈ report.placements :=
  play.perm.mem_iff.1 (List.mem_append_right collected member)

/-- Every state of a play is reached by the items that are collected. -/
theorem reached (accumulates : world.Accumulates initial)
    (items : ∀ item ∈ itemsOf report.placements, item ∈ world.items.map WorldItem.item)
    (play : report.Play world initial state collected remaining) :
    world.manager.Reached (world.items.map WorldItem.item) (world.manager.settle initial)
      (itemsOf collected) state := by
  induction play with
  | start => exact accumulates.reached_start
  | collect play _ played ih =>
      have member := play.mem_placements (List.mem_append_right _ List.mem_cons_self)
      exact accumulates.reached_play ih (items _ (List.mem_map_of_mem member)) played

/-- What is collected and one placement that remains add no more than all placements do. -/
theorem added_collect_le (play : report.Play world initial state collected remaining)
    (counts : ∀ item ∈ itemsOf report.placements, item.Counts)
    {placement : Placement WorldItem WorldLocation} (member : placement ∈ remaining)
    (term : TermId) :
    Manager.added term (itemsOf collected) +
        amountOn term placement.item.item.increments ≤
      Manager.added term (itemsOf report.placements) := by
  have same := play.perm.map fun other => other.item.item
  have part : (collected ++ [placement]).Sublist (collected ++ remaining) :=
    (List.singleton_sublist.2 member).append_left collected
  have most := Manager.added_le_of_sublist term (part.map fun other => other.item.item)
    fun item among => counts item (same.mem_iff.1 among)
  have none : Manager.added term [] = 0 := rfl
  rw [Manager.added_perm term same, List.map_append, Manager.added_append, List.map_singleton,
    Manager.added_cons, none] at most
  unfold itemsOf
  omega

/-- While all that remains lies deeper than a depth, everything up to that depth is collected. -/
theorem filter_perm (play : report.Play world initial state collected remaining) {depth : Nat}
    (deeper : ∀ placement ∈ remaining, depth < placement.item.sphere) :
    (collected.filter fun placement => placement.item.sphere ≤ depth).Perm
      (report.placements.filter fun placement => placement.item.sphere ≤ depth) := by
  have none : remaining.filter (fun placement => placement.item.sphere ≤ depth) = [] := by
    apply List.filter_eq_nil_iff.2
    intro placement member
    simpa using deeper placement member
  have both := play.perm.filter fun placement => placement.item.sphere ≤ depth
  rwa [List.filter_append, none, List.append_nil] at both

end Report.Play

namespace World.Accumulates

variable {world : World} {initial : Progression} (accumulates : world.Accumulates initial)

include accumulates

/-- A location of the world stays open in every larger state. -/
theorem persists_isOpen {location : WorldLocation}
    (source : location.access ∈ world.locations.map WorldLocation.access) :
    Progression.Persists (location.isOpen world.manager.vars) := by
  obtain ⟨other, member, same⟩ := List.mem_map.1 source
  intro lower upper lowerInRange upperInRange below holds
  rw [← WorldLocation.isOpen_eq_of_access same] at holds ⊢
  rw [WorldLocation.isOpen, Bool.and_eq_true, List.all_eq_true] at holds ⊢
  exact ⟨fun cost among => accumulates.costs other member cost among lower upper lowerInRange
      upperInRange below (holds.1 cost among),
    accumulates.locations other member lower upper lowerInRange upperInRange below holds.2⟩

end World.Accumulates

/-- A report that follows its play with items and locations of the world, the items in the order of
their spheres and each at a location of an earlier one. -/
structure Report.FillsForward (report : Report) (world : World) (initial : Progression)
    (states : List Progression) : Prop extends report.FollowsPlay world initial states where
  ascends : (report.placements.map fun placement => placement.item.sphere).Pairwise (· ≤ ·)
  forward : ∀ placement ∈ report.placements, placement.location.sphere < placement.item.sphere
  items : ∀ item ∈ itemsOf report.placements, item ∈ world.items.map WorldItem.item
  locations : ∀ placement ∈ report.placements,
    placement.location.access ∈ world.locations.map WorldLocation.access

/-- The report of every run that succeeds fills its world forward. -/
theorem World.exists_fillsForward {σ : Type} {world : World} {generator : Generator}
    {config : RunConfig} {initial : Progression}
    {constraints : List (Constraint σ WorldItem WorldLocation)}
    {memory : σ} {report : Report}
    (ran : (world.runWith generator config initial constraints memory).1 = .ok report) :
    ∃ states, report.FillsForward world initial states := by
  obtain ⟨items, locations, chronicle, sameItems, sameLocations, tells, records⟩ :=
    exists_records ran
  refine ⟨chronicle.states, { records.followsPlay tells sameLocations with
    ascends := ?_, forward := records.forward, items := ?_, locations := ?_ }⟩
  · rw [records.map_sphere]
    exact tells.ascends
  · intro item member
    have same := (records.natures_perm tells sameItems).map Prod.fst
    rw [List.map_map, List.map_map] at same
    exact same.mem_iff.1 member
  · intro placement member
    rw [← sameLocations, ← tells.covers.mem_iff, List.map_append]
    exact List.mem_append_left _ (List.mem_map_of_mem (records.opened member))

namespace Report.FillsForward

variable {report : Report} {world : World} {initial state : Progression}
  {states : List Progression} {collected remaining : List (Placement WorldItem WorldLocation)}

/-- All items of the report count. -/
theorem counts (fills : report.FillsForward world initial states)
    (accumulates : world.Accumulates initial) : ∀ item ∈ itemsOf report.placements, item.Counts :=
  fun item member => accumulates.counts item (fills.items item member)

/-- The items up to a depth are those that are played before any deeper one. -/
theorem take_items (fills : report.FillsForward world initial states) (depth : Nat) :
    (itemsOf report.placements).take
        (report.placements.countP fun placement => placement.item.sphere ≤ depth) =
      itemsOf (report.placements.filter fun placement => placement.item.sphere ≤ depth) := by
  rw [← List.map_take, take_countP_of_ascends _ _ fills.ascends]

/-- The location of a placement whose item lies no deeper than any that remains is open. -/
theorem isOpen_of_least (fills : report.FillsForward world initial states)
    (accumulates : world.Accumulates initial)
    (play : report.Play world initial state collected remaining)
    {placement : Placement WorldItem WorldLocation} (member : placement ∈ remaining)
    (least : ∀ other ∈ remaining, placement.item.sphere ≤ other.item.sphere) :
    placement.location.isOpen world.manager.vars state.read := by
  have placed := play.mem_placements member
  have reached := play.reached accumulates fills.items
  obtain ⟨⟨checkpoint, found, isOpen⟩, _⟩ := fills.opensAt placement placed
  -- All items up to the sphere of the location are collected, so the state has outgrown the
  -- checkpoint at which the location opened.
  have shallow := play.filter_perm fun other among =>
    Nat.lt_of_lt_of_le (fills.forward placement placed) (least other among)
  have below : checkpoint.InRange ∧ checkpoint ≤ state := by
    refine accumulates.le_of_replay reached.inRange reached.settled
      (Manager.inRange_settle accumulates.inRange) reached.grown fills.items fills.replay found
      ?_ ?_
    · intro item among term sets
      rw [fills.take_items] at among
      obtain ⟨other, within, rfl⟩ := List.mem_map.1 among
      have had := (List.mem_filter.1 (shallow.mem_iff.2 within)).1
      exact reached.marked _ (List.mem_map_of_mem had) term sets
    · intro term free
      have part := (List.filter_sublist (l := collected)
        (p := fun other => other.item.sphere ≤ placement.location.sphere)).map
          fun other => other.item.item
      have most := Manager.added_le_of_sublist term part fun item among => by
        obtain ⟨other, within, rfl⟩ := List.mem_map.1 among
        have before := play.perm.mem_iff.1 (List.mem_append_left _ within)
        exact fills.counts accumulates _ (List.mem_map_of_mem before)
      rw [Manager.added_perm term (shallow.map fun other => other.item.item)] at most
      rw [fills.take_items, reached.counted term free]
      unfold itemsOf
      omega
  exact accumulates.persists_isOpen (fills.locations placement placed) checkpoint state below.1
    reached.inRange below.2 isOpen

/-- There is room for all items together. -/
theorem added_le (fills : report.FillsForward world initial states)
    (accumulates : world.Accumulates initial) {term : TermId}
    (free : ¬world.manager.Marks (world.items.map WorldItem.item) term) :
    (world.manager.settle initial).read term +
      Manager.added term (itemsOf report.placements) ≤ 2147483647 := by
  have final := accumulates.reached_replay accumulates.reached_start fills.items fills.replay
    fills.finalState
  have room := (final.inRange term).2
  rwa [final.counted term free, List.append_nil,
    Manager.added_perm term (List.reverse_perm _)] at room

/-- Every item that remains can be granted. -/
theorem exists_play (fills : report.FillsForward world initial states)
    (accumulates : world.Accumulates initial)
    (play : report.Play world initial state collected remaining)
    {placement : Placement WorldItem WorldLocation} (member : placement ∈ remaining) :
    ∃ next, world.manager.play placement.item.item state = .ok next := by
  have reached := play.reached accumulates fills.items
  have own := fills.items _ (List.mem_map_of_mem (play.mem_placements member))
  have fits : ∀ term, state.read term + amountOn term placement.item.item.increments ≤
      2147483647 := by
    intro term
    by_cases marks : world.manager.Marks (world.items.map WorldItem.item) term
    · have low := reached.low term marks
      rw [accumulates.amountOn_of_marks own marks]
      omega
    · have room := fills.added_le accumulates marks
      have most := play.added_collect_le (fills.counts accumulates) member term
      rw [reached.counted term marks]
      omega
  obtain ⟨granted, ran⟩ := (accumulates.counts _ own).exists_grant reached.inRange fits
  exact ⟨_, Manager.play_eq_ok_iff.2 ⟨granted, ran, rfl⟩⟩

end Report.FillsForward

/-- No order in which a report is collected gets stuck: while placements remain, the location of one
is open, and whichever item is taken next can be granted. -/
theorem World.exists_open_of_play {σ : Type} {world : World} {generator : Generator}
    {config : RunConfig} {initial : Progression}
    {constraints : List (Constraint σ WorldItem WorldLocation)}
    {memory : σ} {report : Report} (accumulates : world.Accumulates initial)
    (ran : (world.runWith generator config initial constraints memory).1 = .ok report)
    {state : Progression} {collected remaining : List (Placement WorldItem WorldLocation)}
    (play : report.Play world initial state collected remaining) (left : remaining ≠ []) :
    (∃ placement ∈ remaining, placement.location.isOpen world.manager.vars state.read) ∧
      ∀ placement ∈ remaining,
        ∃ next, world.manager.play placement.item.item state = .ok next := by
  obtain ⟨states, fills⟩ := exists_fillsForward ran
  constructor
  · let depth := fun placement : Placement WorldItem WorldLocation => placement.item.sphere
    have member : remaining.minOn depth left ∈ remaining := List.minOn_mem
    have least : ∀ other ∈ remaining, depth (remaining.minOn depth left) ≤ depth other :=
      fun other among => List.apply_minOn_le_of_mem among
    exact ⟨_, member, fills.isOpen_of_least accumulates play member least⟩
  · exact fun placement member => fills.exists_play accumulates play member

/-- A threshold that is met stays so in every larger state. -/
theorem Cost.persists_threshold (least : TermAmount) (vars : VariableTable) :
    Progression.Persists (Cost.isMet (.threshold least) vars) := by
  intro lower upper _ _ below holds
  simp only [Cost.isMet, decide_eq_true_eq] at holds ⊢
  exact Int.le_trans holds (below least.term)

namespace World

/-- The cliff accumulates: only its coins are counted, and nothing holds or sets them. -/
theorem accumulates_cliff : cliff.Accumulates ∅ where
  persists := by
    intro waypoint member
    rw [List.mem_singleton.1 member]
    exact Definition.persists_term "Ledge" _ 0
  counts := by
    intro item member
    simp only [cliff, List.map_cons, List.map_nil, List.mem_cons, List.not_mem_nil, or_false]
      at member
    rcases member with rfl | rfl | rfl
    · exact trivial
    · show (0 : Int) ≤ 6
      decide
    · show (0 : Int) ≤ 5
      decide
  apart := by
    have counted : ∀ item ∈ cliff.items.map WorldItem.item, ∀ effect ∈ item.increments,
        effect.term = ⟨1⟩ := by decide
    have unmarked : ¬cliff.manager.Marks (cliff.items.map WorldItem.item) ⟨1⟩ := by
      unfold Manager.Marks Manager.Owns
      decide
    intro term marks item member effect among same
    rw [← same, counted item member effect among] at marks
    exact absurd marks unmarked
  low := fun term _ => by
    have zero : (∅ : Progression).read term = 0 := rfl
    omega
  inRange := fun term => by
    have zero : (∅ : Progression).read term = 0 := rfl
    rw [zero]
    decide
  locations := by
    intro location member
    simp only [cliff, List.mem_cons, List.not_mem_nil, or_false] at member
    rcases member with rfl | rfl | rfl | rfl
    · exact Definition.persists_always "Gate" _
    · exact Definition.persists_term "Nest" _ 2
    · exact Definition.persists_always "Shop" _
    · exact Definition.persists_always "Vault" _
  costs := by
    intro location member cost among
    simp only [cliff, List.mem_cons, List.not_mem_nil, or_false] at member
    rcases member with rfl | rfl | rfl | rfl
    · cases among
    · cases among
    · rw [List.mem_singleton.1 among]
      exact Cost.persists_threshold ⟨⟨1⟩, 5⟩ _
    · rw [List.mem_singleton.1 among]
      exact Cost.persists_threshold ⟨⟨1⟩, 12⟩ _

/-- On the cliff one item is collected, and the other two can still be. -/
theorem exists_open_of_play_cliff :
    ∃ report first state rest,
      (cliff.run .light ∅ ([] : List (Constraint Unit _ _)) ()).1 = .ok report ∧
      report.Play cliff ∅ state [first] rest ∧ rest.length = 2 ∧
      (∃ placement ∈ rest, placement.location.isOpen cliff.manager.vars state.read) ∧
      ∀ placement ∈ rest, ∃ next, cliff.manager.play placement.item.item state = .ok next := by
  obtain ⟨report, ran, _, three⟩ := run_cliff
  have left : report.placements ≠ [] := List.ne_nil_of_length_pos (by omega)
  obtain ⟨⟨first, member, isOpen⟩, granted⟩ := exists_open_of_play accumulates_cliff ran .start left
  obtain ⟨state, played⟩ := granted first member
  obtain ⟨before, after, same⟩ := List.append_of_mem member
  have begun : report.Play cliff ∅ (cliff.manager.settle ∅) [] (before ++ first :: after) := by
    rw [← same]
    exact .start
  have two : (before ++ after).length = 2 := by
    rw [same, List.length_append, List.length_cons] at three
    rw [List.length_append]
    omega
  have play := begun.collect isOpen played
  have leftLater : before ++ after ≠ [] := List.ne_nil_of_length_pos (by omega)
  exact ⟨report, first, state, before ++ after, ran, play, two,
    exists_open_of_play accumulates_cliff ran play leftLater⟩

end World

end Randomizer
