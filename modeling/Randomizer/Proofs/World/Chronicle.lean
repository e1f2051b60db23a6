import Randomizer.Proofs.World.Replay

/-!
What a growth leaves behind, item by item. The state in which the waypoints are settled after each
grant is a checkpoint: a location opens at the first checkpoint that finds it open, and the depth
rises exactly after those at which some location opens.
-/

namespace Randomizer

/-- What no attempt changes of an item: what it is and whether it is required. -/
def WorldItem.nature (worldItem : WorldItem) : Item × Bool := (worldItem.item, worldItem.required)

/-- The items of a growth and the locations that it opens, with their depths, the states that it
goes through and where it ends. -/
structure Chronicle where
  items : List WorldItem
  opened : List WorldLocation
  states : List Progression
  final : Frontier

namespace Frontier

/-- No location that is still to open is open already. -/
def Shut (manager : Manager) (frontier : Frontier) : Prop :=
  ∀ location ∈ frontier.unreached,
    location.isOpen manager.vars frontier.progression.read = false

/-- The locations that stay shut are those that are not open. -/
theorem shut_filter (manager : Manager) (locations : List WorldLocation) (state : Progression) :
    Shut manager ⟨locations.filter (!·.isOpen manager.vars state.read), state⟩ := by
  intro location member
  simpa using (List.mem_filter.1 member).2

/-- The items, granted in order from a depth on, unfold a frontier as a chronicle tells. -/
inductive Unfolds (manager : Manager) : Nat → Frontier → List WorldItem → Chronicle → Prop where
  | done (depth : Nat) (frontier : Frontier) :
      Unfolds manager depth frontier [] ⟨[], [], [frontier.progression], frontier⟩
  | quiet {depth : Nat} {frontier : Frontier} {next : WorldItem} {rest : List WorldItem}
      {state : Progression} {chronicle : Chronicle}
      (played : manager.play next.item frontier.progression = .ok state)
      (shut : Shut manager ⟨frontier.unreached, state⟩)
      (later : Unfolds manager depth ⟨frontier.unreached, state⟩ rest chronicle) :
      Unfolds manager depth frontier (next :: rest)
        { chronicle with
          items := { next with sphere := depth, placed := .temporary } :: chronicle.items
          states := frontier.progression :: chronicle.states }
  | opening {depth : Nat} {frontier : Frontier} {next : WorldItem} {rest : List WorldItem}
      {state : Progression} {chronicle : Chronicle}
      (played : manager.play next.item frontier.progression = .ok state)
      (some : ∃ location ∈ frontier.unreached, location.isOpen manager.vars state.read)
      (later : Unfolds manager (depth + 1)
        ⟨frontier.unreached.filter (!·.isOpen manager.vars state.read), state⟩ rest chronicle) :
      Unfolds manager depth frontier (next :: rest)
        { chronicle with
          items := { next with sphere := depth, placed := .temporary } :: chronicle.items
          opened := ((frontier.unreached.filter (·.isOpen manager.vars state.read)).map
            fun location => { location with sphere := depth, reachable := .permanent }) ++
              chronicle.opened
          states := frontier.progression :: chronicle.states }

namespace Unfolds

variable {manager : Manager} {depth : Nat} {frontier : Frontier} {items : List WorldItem}
  {chronicle : Chronicle}

/-- The chronicle has the items in the order of their grants. -/
theorem map_nature (unfolds : Unfolds manager depth frontier items chronicle) :
    chronicle.items.map WorldItem.nature = items.map WorldItem.nature := by
  induction unfolds with
  | done => rfl
  | quiet _ _ _ ih => exact congrArg (_ :: ·) ih
  | opening _ _ _ ih => exact congrArg (_ :: ·) ih

/-- The states of the chronicle are those of a replay of its items. -/
theorem replay (unfolds : Unfolds manager depth frontier items chronicle) :
    manager.replay frontier.progression (chronicle.items.map WorldItem.item) =
      .ok chronicle.states := by
  induction unfolds with
  | done => rfl
  | quiet played _ _ ih =>
      exact Manager.replay_cons_eq_ok_iff.2 ⟨_, _, played, ih, rfl⟩
  | opening played _ _ ih =>
      exact Manager.replay_cons_eq_ok_iff.2 ⟨_, _, played, ih, rfl⟩

/-- The states of the chronicle start with the first. -/
theorem exists_states_eq_cons (unfolds : Unfolds manager depth frontier items chronicle) :
    ∃ later, chronicle.states = frontier.progression :: later := by
  cases unfolds with
  | done => exact ⟨[], rfl⟩
  | quiet => exact ⟨_, rfl⟩
  | opening => exact ⟨_, rfl⟩

/-- The states of the chronicle end with the final one. -/
theorem getLast?_states (unfolds : Unfolds manager depth frontier items chronicle) :
    chronicle.states.getLast? = some chronicle.final.progression := by
  induction unfolds with
  | done => rfl
  | quiet _ _ later ih =>
      obtain ⟨states, starts⟩ := later.exists_states_eq_cons
      rw [starts] at ih ⊢
      exact ih
  | opening _ _ later ih =>
      obtain ⟨states, starts⟩ := later.exists_states_eq_cons
      rw [starts] at ih ⊢
      exact ih

/-- No item of the chronicle is above its start. -/
theorem depth_le_item (unfolds : Unfolds manager depth frontier items chronicle)
    {item : WorldItem} (member : item ∈ chronicle.items) : depth ≤ item.sphere := by
  induction unfolds with
  | done => cases member
  | quiet _ _ _ ih =>
      rcases List.mem_cons.1 member with rfl | later
      · exact Nat.le_refl _
      · exact ih later
  | opening _ _ _ ih =>
      rcases List.mem_cons.1 member with rfl | later
      · exact Nat.le_refl _
      · exact Nat.le_of_succ_le (ih later)

/-- No location of the chronicle is above its start. -/
theorem depth_le_location (unfolds : Unfolds manager depth frontier items chronicle)
    {location : WorldLocation} (member : location ∈ chronicle.opened) :
    depth ≤ location.sphere := by
  induction unfolds with
  | done => cases member
  | quiet _ _ _ ih => exact ih member
  | opening _ _ _ ih =>
      rcases List.mem_append.1 member with first | later
      · obtain ⟨_, _, rfl⟩ := List.mem_map.1 first
        exact Nat.le_refl _
      · exact Nat.le_of_succ_le (ih later)

/-- Depths never fall along the items. -/
theorem pairwise_sphere (unfolds : Unfolds manager depth frontier items chronicle) :
    (chronicle.items.map WorldItem.sphere).Pairwise (· ≤ ·) := by
  induction unfolds with
  | done => exact List.Pairwise.nil
  | quiet _ _ later ih =>
      refine List.Pairwise.cons (fun sphere member => ?_) ih
      obtain ⟨item, among, rfl⟩ := List.mem_map.1 member
      exact later.depth_le_item among
  | opening _ _ later ih =>
      refine List.Pairwise.cons (fun sphere member => ?_) ih
      obtain ⟨item, among, rfl⟩ := List.mem_map.1 member
      exact Nat.le_of_succ_le (later.depth_le_item among)

/-- Every location is opened once or left over. -/
theorem locations (unfolds : Unfolds manager depth frontier items chronicle) :
    ((chronicle.opened ++ chronicle.final.unreached).map WorldLocation.access).Perm
      (frontier.unreached.map WorldLocation.access) := by
  induction unfolds with
  | done => exact List.Perm.refl _
  | quiet _ _ _ ih => exact ih
  | @opening depth frontier _ _ state _ _ _ _ ih =>
      have parts := (List.filter_append_perm (fun location : WorldLocation =>
        location.isOpen manager.vars state.read) frontier.unreached).map WorldLocation.access
      rw [List.map_append] at parts
      rw [List.append_assoc, List.map_append, List.map_map]
      exact (ih.append_left _).trans parts

/-- Each location that opens was not reached at the start. -/
theorem exists_source (unfolds : Unfolds manager depth frontier items chronicle)
    {location : WorldLocation} (member : location ∈ chronicle.opened) :
    ∃ source ∈ frontier.unreached, source.access = location.access := by
  have among : location.access ∈ frontier.unreached.map WorldLocation.access := by
    rw [← unfolds.locations.mem_iff, List.map_append]
    exact List.mem_append_left _ (List.mem_map_of_mem member)
  exact List.mem_map.1 among

/-- The first item of the chronicle is at its start. -/
theorem sphere_of_head (unfolds : Unfolds manager depth frontier items chronicle)
    {item : WorldItem} (first : chronicle.items[0]? = some item) : item.sphere = depth := by
  cases unfolds with
  | done => cases first
  | quiet =>
      cases first
      rfl
  | opening =>
      cases first
      rfl

/-- A location opens at the checkpoint after the items that lie no deeper. -/
theorem opensAt (unfolds : Unfolds manager depth frontier items chronicle)
    (shut : frontier.Shut manager) {location : WorldLocation}
    (member : location ∈ chronicle.opened) :
    location.OpensAt manager.vars chronicle.states
      (chronicle.items.countP fun item => item.sphere ≤ location.sphere) := by
  induction unfolds with
  | done => cases member
  | quiet played stillShut later ih =>
      obtain ⟨source, among, same⟩ := later.exists_source member
      rw [List.countP_cons_of_pos (by simpa using later.depth_le_location member)]
      refine WorldLocation.opensAt_succ_iff.2 ⟨?_, ih stillShut member⟩
      rw [← WorldLocation.isOpen_eq_of_access same]
      exact shut source among
  | @opening depth frontier next rest state chronicle played some later ih =>
      rcases List.mem_append.1 member with first | deeper
      · obtain ⟨source, among, rfl⟩ := List.mem_map.1 first
        obtain ⟨within, isOpen⟩ := List.mem_filter.1 among
        have none : chronicle.items.countP (fun item => item.sphere ≤ depth) = 0 := by
          apply List.countP_eq_zero.2
          intro item member
          have deeper := later.depth_le_item member
          simpa using Nat.lt_of_succ_le deeper
        obtain ⟨states, starts⟩ := later.exists_states_eq_cons
        rw [List.countP_cons_of_pos (by simp), none, starts]
        exact WorldLocation.opensAt_succ_iff.2
          ⟨shut source within, WorldLocation.opensAt_zero_iff.2 isOpen⟩
      · obtain ⟨source, among, same⟩ := later.exists_source deeper
        have below := Nat.le_of_succ_le (later.depth_le_location deeper)
        rw [List.countP_cons_of_pos (by simpa using below)]
        refine WorldLocation.opensAt_succ_iff.2 ⟨?_, ih (shut_filter manager _ state) deeper⟩
        rw [← WorldLocation.isOpen_eq_of_access same]
        exact shut source ((List.mem_filter.1 among).1)

/-- The depth rises from one item to the next exactly when some location opens in between. -/
theorem sphere_lt_iff (unfolds : Unfolds manager depth frontier items chronicle)
    (shut : frontier.Shut manager) {number : Nat} {item next : WorldItem}
    (found : chronicle.items[number]? = some item)
    (after : chronicle.items[number + 1]? = some next) :
    item.sphere < next.sphere ↔
      ∃ location ∈ frontier.unreached,
        location.OpensAt manager.vars chronicle.states (number + 1) := by
  induction unfolds generalizing number with
  | done => cases found
  | quiet played stillShut later ih =>
      rw [WorldLocation.exists_opensAt_succ_iff shut]
      cases number with
      | zero =>
          obtain ⟨states, starts⟩ := later.exists_states_eq_cons
          cases found
          rw [later.sphere_of_head after, starts]
          refine iff_of_false (Nat.lt_irrefl _) ?_
          rintro ⟨location, among, opens⟩
          have isOpen := WorldLocation.opensAt_zero_iff.1 opens
          rw [stillShut location among] at isOpen
          cases isOpen
      | succ number => exact ih stillShut found after
  | @opening depth frontier first rest state chronicle played some later ih =>
      obtain ⟨states, starts⟩ := later.exists_states_eq_cons
      rw [WorldLocation.exists_opensAt_succ_iff shut]
      cases number with
      | zero =>
          cases found
          rw [later.sphere_of_head after, starts]
          refine iff_of_true (Nat.lt_succ_self _) ?_
          obtain ⟨location, among, isOpen⟩ := some
          exact ⟨location, among, WorldLocation.opensAt_zero_iff.2 isOpen⟩
      | succ number =>
          rw [ih (shut_filter manager _ state) found after]
          constructor
          · rintro ⟨location, among, opens⟩
            exact ⟨location, (List.mem_filter.1 among).1, opens⟩
          · rintro ⟨location, among, opens⟩
            rw [starts] at opens
            have closed := (WorldLocation.opensAt_succ_iff.1 opens).1
            refine ⟨location, List.mem_filter.2 ⟨among, by simpa using closed⟩, ?_⟩
            rwa [starts]

/-- What is left over never opened at any checkpoint, in the order of the start. -/
theorem unreached (unfolds : Unfolds manager depth frontier items chronicle)
    (shut : frontier.Shut manager) :
    chronicle.final.unreached =
      frontier.unreached.filter (·.neverOpens manager.vars chronicle.states) := by
  induction unfolds with
  | done =>
      rw [WorldLocation.filter_neverOpens_cons shut]
      exact (List.filter_eq_self.2 fun _ _ => rfl).symm
  | quiet played stillShut later ih =>
      rw [WorldLocation.filter_neverOpens_cons shut]
      exact ih stillShut
  | opening played some later ih =>
      obtain ⟨states, starts⟩ := later.exists_states_eq_cons
      rw [WorldLocation.filter_neverOpens_cons shut, ih (shut_filter manager _ _),
        List.filter_filter]
      apply List.filter_congr
      intro location _
      rw [starts, WorldLocation.neverOpens_cons, Bool.and_right_comm, Bool.and_self]

end Unfolds

end Frontier

end Randomizer
