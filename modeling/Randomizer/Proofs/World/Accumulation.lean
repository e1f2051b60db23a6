import Randomizer.Proofs.Logic.Grant
import Randomizer.Proofs.World.Replay
import Randomizer.Proofs.World.Settling

/-!
Plays in which nothing is ever lost. Terms that are marked, by a bool item or a waypoint, only rise
to one; every other term reads its start and the amounts granted so far, in whatever order.
-/

namespace Randomizer

namespace Manager

/-- A term that a grant or a waypoint sets, as opposed to one that counts. -/
def Marks (manager : Manager) (items : List Item) (term : TermId) : Prop :=
  manager.Owns term ∨ ∃ item ∈ items, item.setTerm? = some term

/-- Logic that progress never undoes, and items that count, with counting and marked terms kept
apart. -/
structure Accumulates (manager : Manager) (items : List Item) (initial : Progression) : Prop where
  persists : ∀ waypoint ∈ manager.waypoints.values,
    Progression.Persists (waypoint.logic.holds manager.vars)
  counts : ∀ item ∈ items, item.Counts
  apart : ∀ term, manager.Marks items term → ∀ item ∈ items, ∀ effect ∈ item.increments,
    effect.term = term → effect.amount ≤ 0
  low : ∀ term, manager.Marks items term → initial.read term ≤ 1
  inRange : initial.InRange

/-- All that items add to a term. -/
def added (term : TermId) (items : List Item) : Int := amountOn term (items.flatMap Item.increments)

/-- A state that some items lead to from a start in any order of play. -/
structure Reached (manager : Manager) (items : List Item) (start : Progression)
    (collected : List Item) (state : Progression) : Prop where
  inRange : state.InRange
  settled : manager.Settled state
  grown : start ≤ state
  marked : ∀ item ∈ collected, ∀ term, item.setTerm? = some term → 1 ≤ state.read term
  low : ∀ term, manager.Marks items term → state.read term ≤ 1
  counted : ∀ term, ¬manager.Marks items term →
    state.read term = start.read term + added term collected

section Added

variable {term : TermId} {first second : List Item}

/-- The first item adds its own amounts. -/
theorem added_cons (term : TermId) (item : Item) (rest : List Item) :
    added term (item :: rest) = amountOn term item.increments + added term rest := by
  rw [added, List.flatMap_cons, amountOn_append, added]

/-- Items one after another add up. -/
theorem added_append (term : TermId) (first second : List Item) :
    added term (first ++ second) = added term first + added term second := by
  rw [added, List.flatMap_append, amountOn_append, added, added]

/-- The order of the items does not matter to what they add. -/
theorem added_perm (term : TermId) (same : first.Perm second) :
    added term first = added term second :=
  amountOn_perm term (same.flatMap_right Item.increments)

/-- Fewer items that count add no more. -/
theorem added_le_of_sublist (term : TermId) (part : first.Sublist second)
    (counts : ∀ item ∈ second, item.Counts) :
    added term first ≤ added term second := by
  induction part with
  | slnil => exact Int.le_refl _
  | cons item _ ih =>
      have later := ih fun other member => counts other (List.mem_cons_of_mem _ member)
      have here : 0 ≤ amountOn term item.increments :=
        amountOn_nonneg fun _ member _ => (counts item List.mem_cons_self).nonneg member
      rw [added_cons]
      omega
  | cons_cons item _ ih =>
      have later := ih fun other member => counts other (List.mem_cons_of_mem _ member)
      rw [added_cons, added_cons]
      omega

/-- Items that count add no less than nothing. -/
theorem added_nonneg (counts : ∀ item ∈ first, item.Counts) : 0 ≤ added term first := by
  apply amountOn_nonneg
  intro effect member _
  obtain ⟨item, among, within⟩ := List.mem_flatMap.1 member
  exact (counts item among).nonneg within

end Added

namespace Accumulates

variable {manager : Manager} {items : List Item} {initial start : Progression}
  (accumulates : manager.Accumulates items initial)

include accumulates

/-- Items of a world that accumulates take nothing away. -/
theorem amountOn_nonneg {item : Item} (member : item ∈ items) (term : TermId) :
    0 ≤ amountOn term item.increments :=
  Randomizer.amountOn_nonneg fun _ among _ => (accumulates.counts item member).nonneg among

/-- Counting items leave marked terms alone. -/
theorem amountOn_of_marks {item : Item} (member : item ∈ items) {term : TermId}
    (marks : manager.Marks items term) : amountOn term item.increments = 0 :=
  Int.le_antisymm (amountOn_nonpos (accumulates.apart term marks item member))
    (accumulates.amountOn_nonneg member term)

/-- The start is reached without items. -/
theorem reached_start :
    manager.Reached items (manager.settle initial) [] (manager.settle initial) where
  inRange := inRange_settle accumulates.inRange
  settled := settled_settle manager initial
  grown := Progression.le_refl _
  marked := fun _ member => (List.not_mem_nil member).elim
  low := fun term marks => read_settle_le_one (accumulates.low term marks)
  counted := fun _ _ => (Int.add_zero _).symm

/-- A play moves a term that is not marked by what the item adds to it. -/
theorem read_play_of_free {item : Item} {state next : Progression} (member : item ∈ items)
    (played : manager.play item state = .ok next) {term : TermId}
    (free : ¬manager.Marks items term) :
    next.read term = state.read term + amountOn term item.increments := by
  obtain ⟨granted, ran, rfl⟩ := play_eq_ok_iff.1 played
  have notOwned : ¬manager.Owns term := fun owns => free (.inl owns)
  have notSet : item.setTerm? ≠ some term := fun sets => free (.inr ⟨item, member, sets⟩)
  rw [read_settle_of_not_owns notOwned, (accumulates.counts item member).read_grant ran term,
    if_neg notSet]

/-- One more item that is played keeps all that was reached. -/
theorem reached_play {collected : List Item} {state next : Progression} {item : Item}
    (reached : manager.Reached items start collected state) (member : item ∈ items)
    (played : manager.play item state = .ok next) :
    manager.Reached items start (item :: collected) next := by
  obtain ⟨granted, ran, rfl⟩ := play_eq_ok_iff.1 played
  have counts := accumulates.counts item member
  have read := counts.read_grant ran
  have marksSet {term : TermId} (sets : item.setTerm? = some term) : manager.Marks items term :=
    .inr ⟨item, member, sets⟩
  have grows : state ≤ granted := by
    intro term
    rw [read term]
    split
    next sets => exact reached.low term (marksSet sets)
    · have more := accumulates.amountOn_nonneg member term
      omega
  have all : state ≤ manager.settle granted :=
    Progression.le_trans grows (le_settle manager granted)
  constructor
  · exact inRange_settle (counts.inRange_grant reached.inRange ran)
  · exact settled_settle manager granted
  · exact Progression.le_trans reached.grown all
  · intro other among term sets
    rcases List.mem_cons.1 among with rfl | before
    · have atLeast := le_settle manager granted term
      rwa [read term, if_pos sets] at atLeast
    · exact Int.le_trans (reached.marked other before term sets) (all term)
  · intro term marks
    apply read_settle_le_one
    rw [read term]
    split
    · exact Int.le_refl 1
    · rw [accumulates.amountOn_of_marks member marks, Int.add_zero]
      exact reached.low term marks
  · intro term free
    rw [accumulates.read_play_of_free member played free, reached.counted term free, added_cons]
    omega

/-- A replay reaches what its items lead to. -/
theorem reached_replay {collected rest : List Item} {state final : Progression}
    {states : List Progression} (reached : manager.Reached items start collected state)
    (members : ∀ item ∈ rest, item ∈ items) (replayed : manager.replay state rest = .ok states)
    (last : states.getLast? = some final) :
    manager.Reached items start (rest.reverse ++ collected) final := by
  induction rest generalizing state collected states with
  | nil =>
      cases replayed
      cases last
      exact reached
  | cons item rest ih =>
      obtain ⟨next, others, played, later, rfl⟩ := replay_cons_eq_ok_iff.1 replayed
      have step := accumulates.reached_play reached (members item List.mem_cons_self) played
      have some : others ≠ [] := by
        intro none
        have size := length_of_replay later
        rw [none] at size
        cases size
      rw [List.getLast?_cons_of_ne_nil some] at last
      rw [List.reverse_cons, List.append_assoc]
      exact ih step (fun other member => members other (List.mem_cons_of_mem _ member)) later last

/-- One play from below a settled state stays below it, if the state accounts for the item. -/
theorem play_le {item : Item} {lower upper next : Progression} (upperInRange : upper.InRange)
    (settled : manager.Settled upper) (inRange : lower.InRange) (below : lower ≤ upper)
    (member : item ∈ items) (played : manager.play item lower = .ok next)
    (marked : ∀ term, item.setTerm? = some term → 1 ≤ upper.read term)
    (counted : ∀ term, ¬manager.Marks items term →
      lower.read term + amountOn term item.increments ≤ upper.read term) :
    next ≤ upper := by
  obtain ⟨granted, ran, rfl⟩ := play_eq_ok_iff.1 played
  have counts := accumulates.counts item member
  apply settle_le accumulates.persists upperInRange settled (counts.inRange_grant inRange ran)
  intro term
  rw [counts.read_grant ran term]
  split
  next sets => exact marked term sets
  · by_cases marks : manager.Marks items term
    · rw [accumulates.amountOn_of_marks member marks, Int.add_zero]
      exact below term
    · exact counted term marks

/-- What a replay goes through stays below every settled state in which its items are accounted
for. -/
theorem le_of_replay {rest : List Item} {lower upper state : Progression}
    {states : List Progression} {number : Nat} (upperInRange : upper.InRange)
    (settled : manager.Settled upper) (inRange : lower.InRange) (below : lower ≤ upper)
    (members : ∀ item ∈ rest, item ∈ items) (replayed : manager.replay lower rest = .ok states)
    (found : states[number]? = some state)
    (marked : ∀ item ∈ rest.take number, ∀ term, item.setTerm? = some term →
      1 ≤ upper.read term)
    (counted : ∀ term, ¬manager.Marks items term →
      lower.read term + added term (rest.take number) ≤ upper.read term) :
    state.InRange ∧ state ≤ upper := by
  induction rest generalizing lower states number with
  | nil =>
      cases replayed
      cases number with
      | zero =>
          cases found
          exact ⟨inRange, below⟩
      | succ number => cases found
  | cons item rest ih =>
      obtain ⟨next, others, played, later, rfl⟩ := replay_cons_eq_ok_iff.1 replayed
      cases number with
      | zero =>
          cases found
          exact ⟨inRange, below⟩
      | succ number =>
          have member := members item List.mem_cons_self
          have restMembers : ∀ other ∈ rest, other ∈ items :=
            fun other among => members other (List.mem_cons_of_mem _ among)
          rw [List.take_succ_cons] at marked counted
          have nextInRange : next.InRange := by
            obtain ⟨granted, ran, rfl⟩ := play_eq_ok_iff.1 played
            exact inRange_settle ((accumulates.counts item member).inRange_grant inRange ran)
          have nextBelow : next ≤ upper := by
            refine accumulates.play_le upperInRange settled inRange below member played
              (marked item List.mem_cons_self) fun term free => ?_
            have all := counted term free
            have more : 0 ≤ added term (rest.take number) := added_nonneg fun other among =>
              accumulates.counts other (restMembers other (List.mem_of_mem_take among))
            rw [added_cons] at all
            omega
          refine ih nextInRange nextBelow restMembers later found
            (fun other among => marked other (List.mem_cons_of_mem _ among)) fun term free => ?_
          have all := counted term free
          rw [added_cons] at all
          rw [accumulates.read_play_of_free member played free]
          omega

end Accumulates

end Manager

end Randomizer
