import Randomizer.Counting
import Randomizer.Placement.Sphere
import Randomizer.World.Basic

/-!
How a world opens while its items are granted one after another. After each grant the waypoints are
settled; whenever locations open, the items granted since then and those locations make a sphere.
-/

namespace Randomizer

namespace Manager

/-- The waypoints that are not held and whose logic holds, in name order. -/
def readyWaypoints (manager : Manager) (progression : Progression) : List Waypoint :=
  manager.waypoints.values.filter fun waypoint =>
    !progression.holds waypoint.term &&
      waypoint.logic.holds manager.vars progression.read

def setAll (waypoints : List Waypoint) (progression : Progression) : Progression :=
  waypoints.foldl (fun next waypoint => next.set waypoint.term 1) progression

theorem holds_setAll (waypoints : List Waypoint) (progression : Progression) (term : TermId) :
    (setAll waypoints progression).holds term =
      (progression.holds term || (waypoints.map Waypoint.term).contains term) := by
  unfold setAll
  induction waypoints generalizing progression with
  | nil => simp
  | cons waypoint rest ih =>
      rw [List.foldl_cons, ih]
      simp only [Progression.holds, Progression.read_set, List.map_cons, List.contains_cons]
      by_cases same : term = waypoint.term
      · simp [same]
      · rw [if_neg same, beq_false_of_ne same, Bool.false_or]

/-- How many waypoints are not held. -/
def openWaypoints (manager : Manager) (progression : Progression) : Nat :=
  manager.waypoints.values.countP fun waypoint => !progression.holds waypoint.term

theorem openWaypoints_setAll_lt_of_mem {manager : Manager} {progression : Progression}
    {waypoints : List Waypoint} {waypoint : Waypoint} (among : waypoint ∈ waypoints)
    (ready : waypoint ∈ manager.readyWaypoints progression) :
    manager.openWaypoints (setAll waypoints progression) < manager.openWaypoints progression := by
  obtain ⟨member, test⟩ := List.mem_filter.1 ready
  rw [Bool.and_eq_true] at test
  refine countP_lt_countP (fun other _ still => ?_) member ?_ test.1
  · rw [holds_setAll] at still
    simp_all
  · have held : (waypoints.map Waypoint.term).contains waypoint.term := by
      simpa using ⟨waypoint, among, rfl⟩
    rw [holds_setAll, held]
    simp

theorem openWaypoints_setAll_lt {manager : Manager} {progression : Progression}
    (some : manager.readyWaypoints progression ≠ []) :
    manager.openWaypoints (setAll (manager.readyWaypoints progression) progression) <
      manager.openWaypoints progression := by
  obtain ⟨waypoint, ready⟩ := List.exists_mem_of_ne_nil _ some
  exact openWaypoints_setAll_lt_of_mem ready ready

/-- Every waypoint that is ready is set, until none is. -/
def settle (manager : Manager) (progression : Progression) : Progression :=
  if manager.readyWaypoints progression = [] then progression
  else manager.settle (setAll (manager.readyWaypoints progression) progression)
termination_by manager.openWaypoints progression
decreasing_by exact openWaypoints_setAll_lt (by assumption)

end Manager

/-- Where a world stands: the locations that have not opened, in order, and progression. -/
structure Frontier where
  unreached : List WorldLocation
  progression : Progression

namespace Frontier

/-- The locations that open at a depth once the waypoints are settled, and what is left. -/
def advance (manager : Manager) (depth : Nat) (frontier : Frontier) :
    List WorldLocation × Frontier :=
  let progression := manager.settle frontier.progression
  let (opened, unreached) := frontier.unreached.partition fun location =>
    location.isOpen manager.vars progression.read
  (opened.map fun location => { location with sphere := depth, reachable := .permanent },
    ⟨unreached, progression⟩)

/-- A grant's effect on progression, unless it overflows. -/
def grant (manager : Manager) (item : Item) (frontier : Frontier) : Except Overflow Frontier :=
  match item.grant manager.vars frontier.progression with
  | .ok _ progression => .ok { frontier with progression }
  | .error overflow _ => .error overflow

end Frontier

/-- The spheres of a world in order, and where it stands at the end or the overflow of the grant
that stopped it. -/
structure Growth where
  spheres : List (Sphere WorldItem WorldLocation)
  ending : Except Overflow Frontier

namespace Growth

/-- The one group that a world's items and locations belong to. -/
def mainGroup : String := "Main"

/-- The growth by the items that are still to be granted, at a depth of which some items have
been granted already. -/
def grow (manager : Manager) (depth : Nat) (granted : List WorldItem) (frontier : Frontier) :
    List WorldItem → Growth
  | [] =>
    if granted.isEmpty then ⟨[], .ok frontier⟩
    else ⟨[⟨depth, mainGroup, granted, [], true⟩], .ok frontier⟩
  | next :: rest =>
    match frontier.grant manager next.item with
    | .error overflow => ⟨[], .error overflow⟩
    | .ok grown =>
      let granted := granted ++ [{ next with sphere := depth, placed := .temporary }]
      let (opened, frontier) := grown.advance manager depth
      if opened.isEmpty then grow manager depth granted frontier rest
      else
        let growth := grow manager (depth + 1) [] frontier rest
        { growth with
          spheres := ⟨depth, mainGroup, granted, opened, rest.isEmpty⟩ :: growth.spheres }

/-- The growth of a world from a start, with the items in the order of their grants. -/
def ofOrder (manager : Manager) (start : Progression) (items : List WorldItem)
    (locations : List WorldLocation) : Growth :=
  let (opened, frontier) := Frontier.advance manager 0 ⟨locations, start⟩
  let growth := grow manager 1 [] frontier items
  { growth with spheres := ⟨0, mainGroup, [], opened, items.isEmpty⟩ :: growth.spheres }

end Growth

end Randomizer
