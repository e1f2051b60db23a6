import Randomizer.Proofs.World.Spheres

namespace Randomizer

/-- The element with the given number is the first of its value in a list. -/
def StartsAt (values : List Nat) (number : Nat) : Prop :=
  ∃ value, values[number]? = some value ∧ value ∉ values.take number

/-- Values start at the first. -/
theorem startsAt_zero {values : List Nat} (some : 0 < values.length) : StartsAt values 0 :=
  ⟨values[0], List.getElem?_eq_getElem some, by simp⟩

/-- In an ascending list a value is new when it is above the one before it. -/
theorem startsAt_succ_iff {values : List Nat} (ascends : values.Pairwise (· ≤ ·)) {number : Nat}
    {value next : Nat} (found : values[number]? = some value)
    (after : values[number + 1]? = some next) :
    StartsAt values (number + 1) ↔ value < next := by
  obtain ⟨inside, here⟩ := List.getElem?_eq_some_iff.1 found
  obtain ⟨within, there⟩ := List.getElem?_eq_some_iff.1 after
  have ordered := List.pairwise_iff_getElem.1 ascends
  constructor
  · rintro ⟨first, isFirst, new⟩
    cases after.symm.trans isFirst
    have least := ordered number (number + 1) inside within (by omega)
    have apart : value ≠ next := by
      rintro rfl
      exact new (List.mem_take_iff_getElem.2 ⟨number, by omega, here⟩)
    omega
  · refine fun rises => ⟨next, after, fun member => ?_⟩
    obtain ⟨earlier, before, same⟩ := List.mem_take_iff_getElem.1 member
    by_cases last : earlier = number
    · subst last
      omega
    · have least := ordered earlier number (by omega) inside (by omega)
      omega

/-- A chronicle that tells all there is to know about items granted from a start on: each location
opens at the checkpoint after the items that lie no deeper, or is left over. -/
structure Chronicle.Tells (chronicle : Chronicle) (manager : Manager) (start : Progression)
    (items : List WorldItem) (locations : List WorldLocation) : Prop where
  natures : chronicle.items.map WorldItem.nature = items.map WorldItem.nature
  replay : manager.replay (manager.settle start) (chronicle.items.map WorldItem.item) =
    .ok chronicle.states
  getLast? : chronicle.states.getLast? = some chronicle.final.progression
  ascends : (chronicle.items.map WorldItem.sphere).Pairwise (· ≤ ·)
  covers : ((chronicle.opened ++ chronicle.final.unreached).map WorldLocation.access).Perm
    (locations.map WorldLocation.access)
  opensAt : ∀ location ∈ chronicle.opened,
    location.OpensAt manager.vars chronicle.states
      (chronicle.items.countP fun item => item.sphere ≤ location.sphere)
  startsAt_iff : ∀ number < chronicle.items.length,
    StartsAt (chronicle.items.map WorldItem.sphere) number ↔
      number = 0 ∨ ∃ location ∈ locations, location.OpensAt manager.vars chronicle.states number
  unreached : chronicle.final.unreached =
    locations.filter (·.neverOpens manager.vars chronicle.states)

namespace Growth

section Start

variable {manager : Manager} {start : Progression} {items : List WorldItem}
  {locations : List WorldLocation} {chronicle : Chronicle}

/-- The locations that are open once the waypoints are settled at the start. -/
def openedFirst (manager : Manager) (start : Progression) (locations : List WorldLocation) :
    List WorldLocation :=
  (locations.filter (·.isOpen manager.vars (manager.settle start).read)).map
    fun location => { location with sphere := 0, reachable := .permanent }

/-- The locations that are closed then. -/
def closedFirst (manager : Manager) (start : Progression) (locations : List WorldLocation) :
    Frontier :=
  ⟨locations.filter (!·.isOpen manager.vars (manager.settle start).read), manager.settle start⟩

/-- A growth is its first sphere and what grows after it. -/
theorem ofOrder_eq :
    ofOrder manager start items locations =
      let growth := grow manager 1 [] (closedFirst manager start locations) items
      { growth with
        spheres := ⟨0, mainGroup, [], openedFirst manager start locations, items.isEmpty⟩ ::
          growth.spheres } := by
  simp only [ofOrder, Frontier.advance_eq, openedFirst, closedFirst]

/-- A growth has consecutive spheres from zero. -/
theorem layered_ofOrder : Layered 0 (ofOrder manager start items locations).spheres := by
  rw [ofOrder_eq]
  refine ⟨by simp, fun location member => ?_, layered_grow manager 1 [] _ items (by simp)⟩
  obtain ⟨source, _, rfl⟩ := List.mem_map.1 member
  rfl

/-- The items of a world lie at the depths from one up to that of its last sphere. -/
theorem exists_sphere_iff_ofOrder {number : Nat} :
    (∃ item ∈ (ofOrder manager start items locations).spheres.flatMap Sphere.items,
        item.sphere = number) ↔
      1 ≤ number ∧ number < (ofOrder manager start items locations).spheres.length := by
  have layered : Layered 0 (ofOrder manager start items locations).spheres := layered_ofOrder
  rw [ofOrder_eq] at layered ⊢
  obtain ⟨_, _, deeper⟩ := layered
  rw [List.flatMap_cons, List.nil_append, deeper.exists_sphere_iff
    (items_ne_nil_of_mem_grow manager 1 [] _ items), List.length_cons]
  omega

/-- A growth has at least one sphere. -/
theorem length_spheres_pos : 0 < (ofOrder manager start items locations).spheres.length := by
  rw [ofOrder_eq]
  exact Nat.succ_pos _

variable (unfolds : (closedFirst manager start locations).Unfolds manager 1 items chronicle)

include unfolds

/-- A location that is open at the start opens at the first sphere's number of items. -/
theorem opensAt_of_openedFirst {location : WorldLocation}
    (member : location ∈ openedFirst manager start locations) :
    location.OpensAt manager.vars chronicle.states
      (chronicle.items.countP fun item => item.sphere ≤ location.sphere) := by
  obtain ⟨source, among, rfl⟩ := List.mem_map.1 member
  have none : chronicle.items.countP (fun item => item.sphere ≤ 0) = 0 := by
    apply List.countP_eq_zero.2
    intro item member
    simpa using Nat.pos_iff_ne_zero.1 (unfolds.depth_le_item member)
  obtain ⟨later, starts⟩ := unfolds.exists_states_eq_cons
  rw [none, starts]
  exact WorldLocation.opensAt_zero_iff.2 (List.mem_filter.1 among).2

/-- A sphere starts at the first item and wherever a location opens. -/
theorem startsAt_iff_of_unfolds {number : Nat} (inside : number < chronicle.items.length) :
    StartsAt (chronicle.items.map WorldItem.sphere) number ↔
      number = 0 ∨
        ∃ location ∈ locations, location.OpensAt manager.vars chronicle.states number := by
  have shut := Frontier.shut_filter manager locations (manager.settle start)
  cases number with
  | zero => exact iff_of_true (startsAt_zero (by simpa using inside)) (.inl rfl)
  | succ number =>
      have found := List.getElem?_eq_getElem (Nat.lt_of_succ_lt inside)
      have after := List.getElem?_eq_getElem inside
      rw [startsAt_succ_iff unfolds.pairwise_sphere (by rw [List.getElem?_map, found]; rfl)
        (by rw [List.getElem?_map, after]; rfl), unfolds.sphere_lt_iff shut found after]
      obtain ⟨later, starts⟩ := unfolds.exists_states_eq_cons
      constructor
      · rintro ⟨location, among, opens⟩
        exact .inr ⟨location, (List.mem_filter.1 among).1, opens⟩
      · rintro (⟨⟨⟩⟩ | ⟨location, member, opens⟩)
        have later := opens
        rw [starts] at later
        have closed : location.isOpen manager.vars (manager.settle start).read = false :=
          (WorldLocation.opensAt_succ_iff.1 later).1
        exact ⟨location, List.mem_filter.2 ⟨member, by simpa using closed⟩, opens⟩

end Start

/-- The growth of a world that does not overflow has a chronicle, and its spheres hold the items and
the opened locations of it. -/
theorem exists_tells {manager : Manager} {start : Progression} {items : List WorldItem}
    {locations : List WorldLocation} {final : Frontier}
    (ends : (ofOrder manager start items locations).ending = .ok final) :
    ∃ chronicle : Chronicle, chronicle.Tells manager start items locations ∧
      chronicle.final = final ∧
      (ofOrder manager start items locations).spheres.flatMap Sphere.items = chronicle.items ∧
      (ofOrder manager start items locations).spheres.flatMap Sphere.locations =
        chronicle.opened := by
  rw [ofOrder_eq] at ends ⊢
  obtain ⟨chronicle, unfolds, ended, sameItems, sameLocations⟩ := exists_unfolds ends
  refine ⟨{ chronicle with opened := openedFirst manager start locations ++ chronicle.opened },
    ?_, ended, ?_, ?_⟩
  · have shut := Frontier.shut_filter manager locations (manager.settle start)
    exact {
      natures := unfolds.map_nature
      replay := unfolds.replay
      getLast? := unfolds.getLast?_states
      ascends := unfolds.pairwise_sphere
      covers := by
        have parts := (List.filter_append_perm (fun location : WorldLocation =>
          location.isOpen manager.vars (manager.settle start).read) locations).map
            WorldLocation.access
        rw [List.map_append] at parts
        rw [List.append_assoc, List.map_append, openedFirst, List.map_map]
        exact (unfolds.locations.append_left _).trans parts
      opensAt := fun location member => by
        rcases List.mem_append.1 member with first | later
        · exact opensAt_of_openedFirst unfolds first
        · exact unfolds.opensAt shut later
      startsAt_iff := fun _ inside => startsAt_iff_of_unfolds unfolds inside
      unreached := by
        obtain ⟨later, starts⟩ := unfolds.exists_states_eq_cons
        rw [unfolds.unreached shut, closedFirst, List.filter_filter]
        apply List.filter_congr
        intro location _
        rw [starts, WorldLocation.neverOpens_cons, Bool.and_right_comm, closedFirst,
          Bool.and_self] }
  · rw [List.flatMap_cons, sameItems]
    rfl
  · rw [List.flatMap_cons, sameLocations]

end Growth

end Randomizer
