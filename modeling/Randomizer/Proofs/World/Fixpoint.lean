import Mathlib.Logic.Function.Iterate
import Randomizer.Proofs.World.Settling

/-!
Settling as a fixpoint. Each round sets everything that is ready under the state before it, and
there are no more rounds than waypoints that are not held. With logic that progress never undoes,
what comes out is the least state above the start in which no waypoint is missing, and so it is what
setting the waypoints one at a time comes to, in any order.
-/

namespace Randomizer.Manager

variable {manager : Manager} {progression middle final upper : Progression}

/-- Every waypoint whose logic holds is held. -/
def Closed (manager : Manager) (progression : Progression) : Prop :=
  ∀ waypoint ∈ manager.waypoints.values,
    waypoint.logic.holds manager.vars progression.read → 0 < progression.read waypoint.term

/-- A state is settled just if it is closed. -/
theorem settled_iff_closed : manager.Settled progression ↔ manager.Closed progression := by
  constructor
  · intro settled waypoint member holds
    by_contra low
    have ready := mem_readyWaypoints.2 ⟨member, Int.not_lt.1 low, holds⟩
    rw [settled] at ready
    cases ready
  · intro closed
    apply List.eq_nil_iff_forall_not_mem.2
    intro waypoint ready
    obtain ⟨member, low, holds⟩ := mem_readyWaypoints.1 ready
    exact absurd (closed waypoint member holds) (Int.not_lt.2 low)

section Rounds

/-- One round of settling. -/
def sweep (manager : Manager) (progression : Progression) : Progression :=
  setAll (manager.readyWaypoints progression) progression

/-- The waypoints that a number of rounds set, in order. -/
def swept (manager : Manager) (progression : Progression) : Nat → List Waypoint
  | 0 => []
  | rounds + 1 =>
    manager.readyWaypoints progression ++ manager.swept (manager.sweep progression) rounds

/-- Waypoints may be set at once or one part after the other. -/
theorem setAll_append (first second : List Waypoint) (progression : Progression) :
    setAll (first ++ second) progression = setAll second (setAll first progression) :=
  List.foldl_append

/-- Setting waypoints that are not held only adds to a state. -/
theorem le_setAll {waypoints : List Waypoint}
    (low : ∀ waypoint ∈ waypoints, progression.read waypoint.term ≤ 0) :
    progression ≤ setAll waypoints progression := by
  intro term
  rw [read_setAll]
  split
  next set =>
    obtain ⟨waypoint, among, rfl⟩ := List.mem_map.1 set
    have start := low waypoint among
    omega
  · exact Int.le_refl _

/-- After some rounds the waypoints swept so far are set. -/
theorem iterate_sweep (manager : Manager) (progression : Progression) (rounds : Nat) :
    manager.sweep^[rounds] progression = setAll (manager.swept progression rounds) progression := by
  induction rounds generalizing progression with
  | zero => rfl
  | succ rounds ih => rw [Function.iterate_succ_apply, ih, swept, setAll_append, sweep]

/-- Rounds set waypoints only, and none that was held at the start. -/
theorem mem_swept {rounds : Nat} {waypoint : Waypoint}
    (member : waypoint ∈ manager.swept progression rounds) :
    waypoint ∈ manager.waypoints.values ∧ progression.read waypoint.term ≤ 0 := by
  induction rounds generalizing progression with
  | zero => cases member
  | succ rounds ih =>
      rcases List.mem_append.1 member with now | later
      · obtain ⟨known, low, _⟩ := mem_readyWaypoints.1 now
        exact ⟨known, low⟩
      · obtain ⟨known, low⟩ := ih later
        have grows : progression ≤ manager.sweep progression :=
          le_setAll fun other ready => (mem_readyWaypoints.1 ready).2.1
        exact ⟨known, Int.le_trans (grows waypoint.term) low⟩

/-- How settling runs: a number of rounds, each with something to set. All that they set are
waypoints that were not held at the start, and these hold a one at the end. -/
structure SettlesIn (manager : Manager) (progression : Progression) (rounds : Nat) : Prop where
  bounded : rounds ≤ manager.openWaypoints progression
  busy : ∀ earlier < rounds, manager.readyWaypoints (manager.sweep^[earlier] progression) ≠ []
  ends : manager.settle progression = manager.sweep^[rounds] progression
  writes : manager.settle progression = setAll (manager.swept progression rounds) progression
  written : ∀ waypoint ∈ manager.swept progression rounds,
    waypoint ∈ manager.waypoints.values ∧ progression.read waypoint.term ≤ 0 ∧
      (manager.settle progression).read waypoint.term = 1
  kept : ∀ term, (∀ waypoint ∈ manager.swept progression rounds, waypoint.term ≠ term) →
    (manager.settle progression).read term = progression.read term

/-- A state settles in as many rounds as its waypoints allow. -/
theorem exists_rounds (manager : Manager) (progression : Progression) :
    ∃ rounds ≤ manager.openWaypoints progression,
      (∀ earlier < rounds, manager.readyWaypoints (manager.sweep^[earlier] progression) ≠ []) ∧
      manager.settle progression = manager.sweep^[rounds] progression := by
  induction progression using settle.induct manager with
  | case1 progression none =>
      refine ⟨0, Nat.zero_le _, fun earlier before => absurd before (Nat.not_lt_zero _), ?_⟩
      rw [settle, if_pos none]
      rfl
  | case2 progression some ih =>
      obtain ⟨rounds, most, busy, ends⟩ := ih
      have fewer := openWaypoints_setAll_lt some
      refine ⟨rounds + 1, by omega, fun earlier before => ?_, ?_⟩
      · cases earlier with
        | zero => exact some
        | succ earlier => exact busy earlier (Nat.lt_of_succ_lt_succ before)
      · rw [settle, if_neg some, ends]
        rfl

/-- Every state settles after some rounds. -/
theorem exists_settlesIn (manager : Manager) (progression : Progression) :
    ∃ rounds, manager.SettlesIn progression rounds := by
  obtain ⟨rounds, bounded, busy, ends⟩ := exists_rounds manager progression
  have writes := ends
  rw [iterate_sweep] at writes
  refine ⟨rounds, bounded, busy, ends, writes, fun waypoint member => ?_, fun term apart => ?_⟩
  · obtain ⟨known, low⟩ := mem_swept member
    refine ⟨known, low, ?_⟩
    rw [writes, read_setAll, if_pos (List.mem_map_of_mem member)]
  · rw [writes, read_setAll, if_neg]
    intro set
    obtain ⟨waypoint, member, same⟩ := List.mem_map.1 set
    exact apart waypoint member same

end Rounds

/-- To set one waypoint is to set a list of one. -/
theorem setAll_singleton (waypoint : Waypoint) (progression : Progression) :
    setAll [waypoint] progression = progression.set waypoint.term 1 := rfl

/-- A ready waypoint that is set is open no more. -/
theorem openWaypoints_set_lt {waypoint : Waypoint}
    (ready : waypoint ∈ manager.readyWaypoints progression) :
    manager.openWaypoints (progression.set waypoint.term 1) <
      manager.openWaypoints progression := by
  rw [← setAll_singleton]
  exact openWaypoints_setAll_lt_of_mem (List.mem_singleton_self waypoint) ready

/-- Waypoints set one at a time, each of them ready when its turn comes. -/
inductive Picks (manager : Manager) : Progression → List Waypoint → Progression → Prop where
  | done (progression : Progression) : Picks manager progression [] progression
  | next {progression final : Progression} {waypoint : Waypoint} {rest : List Waypoint}
      (ready : waypoint ∈ manager.readyWaypoints progression)
      (later : Picks manager (progression.set waypoint.term 1) rest final) :
      Picks manager progression (waypoint :: rest) final

namespace Picks

variable {picked : List Waypoint}

/-- Waypoints that are picked one by one are set in the end. -/
theorem eq_setAll (picks : manager.Picks progression picked final) :
    final = setAll picked progression := by
  induction picks with
  | done => rfl
  | next _ _ ih => exact ih

/-- No waypoint that is picked was held. -/
theorem low (picks : manager.Picks progression picked final) :
    ∀ waypoint ∈ picked, progression.read waypoint.term ≤ 0 := by
  induction picks with
  | done => nofun
  | @next progression _ first rest ready _ ih =>
      obtain ⟨_, firstLow, _⟩ := mem_readyWaypoints.1 ready
      intro waypoint member
      rcases List.mem_cons.1 member with rfl | later
      · exact firstLow
      · have stillLow := ih waypoint later
        rw [Progression.read_set] at stillLow
        split at stillLow
        · omega
        · exact stillLow

/-- There are no more turns than waypoints that are not held. -/
theorem length_le (picks : manager.Picks progression picked final) :
    picked.length ≤ manager.openWaypoints progression := by
  induction picks with
  | done => exact Nat.zero_le _
  | @next progression _ waypoint rest ready _ ih =>
      have fewer := openWaypoints_set_lt ready
      rw [List.length_cons]
      omega

/-- Whatever was set already, some further turns leave nothing ready. -/
theorem exists_settled (manager : Manager) (progression : Progression) :
    ∃ picked final, manager.Picks progression picked final ∧ manager.Settled final := by
  by_cases settled : manager.readyWaypoints progression = []
  · exact ⟨[], progression, .done progression, settled⟩
  · obtain ⟨waypoint, ready⟩ := List.exists_mem_of_ne_nil _ settled
    have fewer := openWaypoints_set_lt ready
    obtain ⟨picked, final, picks, ends⟩ := exists_settled manager (progression.set waypoint.term 1)
    exact ⟨waypoint :: picked, final, .next ready picks, ends⟩
termination_by manager.openWaypoints progression

section Below

variable (persists : ∀ waypoint ∈ manager.waypoints.values,
    Progression.Persists (waypoint.logic.holds manager.vars))
include persists

/-- No turn passes a settled progression above the start. -/
theorem le (picks : manager.Picks progression picked final) (upperInRange : upper.InRange)
    (settled : manager.Settled upper) (inRange : progression.InRange)
    (below : progression ≤ upper) : final ≤ upper := by
  induction picks with
  | done => exact below
  | @next progression _ waypoint rest ready _ ih =>
      have one : ∀ other ∈ [waypoint], other ∈ manager.readyWaypoints progression := by
        intro other member
        rwa [List.mem_singleton.1 member]
      have stays := setAll_le persists upperInRange settled one inRange below
      exact ih (inRange_setAll [waypoint] inRange) stays

/-- Turns that leave nothing ready come to what settling comes to. -/
theorem read_eq_settle (picks : manager.Picks progression picked final)
    (settled : manager.Settled final) (inRange : progression.InRange) :
    final.read = (manager.settle progression).read := by
  have upward : progression ≤ final := by
    rw [picks.eq_setAll]
    exact le_setAll picks.low
  have finalInRange : final.InRange := by
    rw [picks.eq_setAll]
    exact inRange_setAll picked inRange
  have most := picks.le persists (inRange_settle inRange) (settled_settle manager progression)
    inRange (le_settle manager progression)
  have least := settle_le persists finalInRange settled inRange upward
  funext term
  exact Int.le_antisymm (most term) (least term)

end Below

end Picks

section Storage

variable {first second : List Waypoint}

/-- The terms that are set are those that changed. -/
theorem mem_terms_iff (low : ∀ waypoint ∈ first, progression.read waypoint.term ≤ 0)
    (term : TermId) : term ∈ first.map Waypoint.term ↔
      (setAll first progression).read term ≠ progression.read term := by
  rw [read_setAll]
  split
  next set =>
    obtain ⟨waypoint, among, rfl⟩ := List.mem_map.1 set
    have start := low waypoint among
    simp only [set, ne_eq, true_iff]
    omega
  next unset => simp [unset]

/-- Setting waypoints makes room for their terms and no more. -/
theorem size_setAll_le_iff (waypoints : List Waypoint) (progression : Progression) (bound : Nat) :
    (setAll waypoints progression).values.size ≤ bound ↔
      progression.values.size ≤ bound ∧
        ∀ term ∈ waypoints.map Waypoint.term, term.index < bound := by
  induction waypoints generalizing progression with
  | nil => simp [setAll]
  | cons waypoint rest ih =>
      have whole := ih (progression.set waypoint.term 1)
      rw [Progression.size_set, Nat.max_le, and_assoc] at whole
      rw [List.map_cons, List.forall_mem_cons]
      exact whole

/-- What is set from a start is told by what the terms read then, storage included. -/
theorem setAll_eq_of_read (lowFirst : ∀ waypoint ∈ first, progression.read waypoint.term ≤ 0)
    (lowSecond : ∀ waypoint ∈ second, progression.read waypoint.term ≤ 0)
    (read : (setAll first progression).read = (setAll second progression).read) :
    setAll first progression = setAll second progression := by
  have sameTerms (term : TermId) :
      term ∈ first.map Waypoint.term ↔ term ∈ second.map Waypoint.term := by
    rw [mem_terms_iff lowFirst, mem_terms_iff lowSecond, read]
  have sameBounds (bound : Nat) : (setAll first progression).values.size ≤ bound ↔
      (setAll second progression).values.size ≤ bound := by
    simp only [size_setAll_le_iff, sameTerms]
  have size := Nat.le_antisymm ((sameBounds _).2 (Nat.le_refl _)) ((sameBounds _).1 (Nat.le_refl _))
  exact Progression.eq_of_read size read

end Storage

/-- Turns that leave nothing ready come to the very state that settling leaves. -/
theorem Picks.eq_settle
    (persists : ∀ waypoint ∈ manager.waypoints.values,
      Progression.Persists (waypoint.logic.holds manager.vars))
    {picked : List Waypoint} (picks : manager.Picks progression picked final)
    (settled : manager.Settled final) (inRange : progression.InRange) :
    final = manager.settle progression := by
  have read := picks.read_eq_settle persists settled inRange
  obtain ⟨rounds, settles⟩ := exists_settlesIn manager progression
  rw [settles.writes] at read ⊢
  rw [picks.eq_setAll] at read ⊢
  exact setAll_eq_of_read picks.low (fun waypoint member => (mem_swept member).2) read

/-- Settling ends and leaves no waypoint that should be held. With logic that progress never undoes
it comes to the least such state above its start, and so does every way to set the waypoints one at
a time, none of which can go on for ever. -/
theorem settle_isLeast (manager : Manager) (progression : Progression) :
    (∃ rounds, manager.SettlesIn progression rounds) ∧
    manager.Closed (manager.settle progression) ∧
    ((∀ waypoint ∈ manager.waypoints.values,
        Progression.Persists (waypoint.logic.holds manager.vars)) →
      progression.InRange →
      (∀ upper : Progression, upper.InRange → progression ≤ upper → manager.Closed upper →
        manager.settle progression ≤ upper) ∧
      ∀ picked middle, manager.Picks progression picked middle →
        picked.length ≤ manager.openWaypoints progression ∧
        (∃ more final, manager.Picks middle more final ∧ manager.Closed final) ∧
        (manager.Closed middle → middle = manager.settle progression)) := by
  have closed := settled_iff_closed.1 (settled_settle manager progression)
  refine ⟨exists_settlesIn manager progression, closed, fun persists inRange => ⟨?_, ?_⟩⟩
  · intro upper upperInRange below upperClosed
    exact settle_le persists upperInRange (settled_iff_closed.2 upperClosed) inRange below
  · intro picked middle picks
    obtain ⟨more, final, later, ends⟩ := Picks.exists_settled manager middle
    refine ⟨picks.length_le, ⟨more, final, later, settled_iff_closed.1 ends⟩, fun ended => ?_⟩
    exact picks.eq_settle persists (settled_iff_closed.2 ended) inRange

/-- A ledge that takes a cloak, and a summit beyond it. -/
def ridge : Manager where
  terms := ⟨["Cloak", "Ledge", "Summit"], by decide⟩
  macros := ∅
  resolver := Resolver.integers
  vars := ∅
  definitions := ∅
  items := ∅
  transitions := ∅
  waypoints := .ofList [("Ledge", ⟨⟨1⟩, ⟨"Ledge", [0]⟩⟩), ("Summit", ⟨⟨2⟩, ⟨"Summit", [1]⟩⟩)]

/-- From the cloak alone both waypoints are set, and nothing that a closed state above may lack. -/
theorem settle_isLeast_ridge :
    ridge.settle ⟨#[1]⟩ = ⟨#[1, 1, 1]⟩ ∧ ridge.settle ⟨#[1]⟩ ≤ ⟨#[7, 1, 2, 5]⟩ := by
  have persists : ∀ waypoint ∈ ridge.waypoints.values,
      Progression.Persists (waypoint.logic.holds ridge.vars) := by
    have both : ridge.waypoints.values =
        [⟨⟨1⟩, ⟨"Ledge", [0]⟩⟩, ⟨⟨2⟩, ⟨"Summit", [1]⟩⟩] := rfl
    intro waypoint member
    simp only [both, List.mem_cons, List.not_mem_nil, or_false] at member
    rcases member with rfl | rfl
    · exact Definition.persists_term "Ledge" _ 0
    · exact Definition.persists_term "Summit" _ 1
  have start : Progression.InRange ⟨#[1]⟩ := Progression.inRange_of_values (by decide)
  have upper : Progression.InRange ⟨#[7, 1, 2, 5]⟩ := Progression.inRange_of_values (by decide)
  have below : (⟨#[1]⟩ : Progression) ≤ ⟨#[7, 1, 2, 5]⟩ := by
    rintro ⟨index⟩
    match index with
    | 0 | 1 | 2 | 3 => decide
    | _ + 4 => exact Int.le_refl _
  have closed : ridge.Closed ⟨#[7, 1, 2, 5]⟩ := settled_iff_closed.1 rfl
  obtain ⟨least, same⟩ := (settle_isLeast ridge ⟨#[1]⟩).2.2 persists start
  have ledge : ⟨⟨1⟩, ⟨"Ledge", [0]⟩⟩ ∈ ridge.readyWaypoints ⟨#[1]⟩ := by decide
  have summit : ⟨⟨2⟩, ⟨"Summit", [1]⟩⟩ ∈ ridge.readyWaypoints ⟨#[1, 1]⟩ := by decide
  have picks := Picks.next ledge (.next summit (.done _))
  have settled := (same _ _ picks).2.2 (settled_iff_closed.1 rfl)
  exact ⟨settled.symm, least _ upper below closed⟩

end Randomizer.Manager
