import Mathlib.Data.List.Perm.Basic
import Randomizer.Proofs.World.Checkpoints

namespace Randomizer

/-- Values that are, in some order, those that a list shows can be read off distinct positions. -/
theorem exists_positions {α β : Type} {view : α → β} {list : List α} {values : List β}
    (same : values.Perm (list.map view)) :
    ∃ positions : List Nat, positions.Nodup ∧
      positions.map (fun position => list[position]?.map view) = values.map some := by
  have listed : (list.map view).map some =
      (List.range list.length).map fun position => list[position]?.map view := by
    apply List.ext_getElem (by simp)
    intro index inside _
    have within : index < list.length := by simpa using inside
    simp [List.getElem?_eq_getElem within]
  have matched := same.map some
  rw [listed] at matched
  obtain ⟨positions, shown, arranged⟩ :=
    (congrFun₂ (List.eq_map_comp_perm fun position => list[position]?.map view) _ _).mpr matched
  exact ⟨positions, arranged.nodup_iff.2 List.nodup_range, shown.symm⟩

/-- Positions among the locations of a world, no two the same: those that the placements of a report
use and those that it lists as out of reach. -/
structure Report.Occupies (report : Report) (world : World) (used missed : List Nat) : Prop where
  apart : (used ++ missed).Nodup
  used : used.map (fun position => world.locations[position]?.map WorldLocation.access) =
    report.placements.map fun placement => some placement.location.access
  missed : missed.map (fun position => world.locations[position]?.map WorldLocation.name) =
    report.unreachable.map some

/-- A report that places each item of a world once, at a location of its own in an earlier sphere,
sphere after sphere. A used location can only share its name with one that is out of reach. -/
structure Report.Allots (report : Report) (world : World) : Prop where
  items : (report.placements.map fun placement => placement.item.nature).Perm
    (world.items.map WorldItem.nature)
  locations : ∃ used missed, report.Occupies world used missed
  unlisted : ∀ placement ∈ report.placements, placement.location.name ∈ report.unreachable →
    ∃ other ∈ world.locations, other.name = placement.location.name ∧
      other.access ≠ placement.location.access
  forward : ∀ placement ∈ report.placements, placement.location.sphere < placement.item.sphere
  ascends : (report.placements.map fun placement => placement.item.sphere).Pairwise (· ≤ ·)
  consecutive : ∀ sphere, (∃ placement ∈ report.placements, placement.item.sphere = sphere) ↔
    1 ≤ sphere ∧ sphere < report.spheres
  spheres : report.spheres =
    (report.placements.map fun placement => placement.item.sphere).getLast?.getD 0 + 1

/-- In an ascending list that holds the numbers from one up to a count, the count follows on the
last. -/
theorem eq_getLast_succ_of_ascends {values : List Nat} {count : Nat}
    (ascends : values.Pairwise (· ≤ ·)) (some : 0 < count)
    (consecutive : ∀ value, value ∈ values ↔ 1 ≤ value ∧ value < count) :
    count = values.getLast?.getD 0 + 1 := by
  cases last : values.getLast? with
  | none =>
      rw [List.getLast?_eq_none_iff] at last
      have noOne := consecutive 1
      rw [last, iff_false_left List.not_mem_nil] at noOne
      rw [Option.getD_none]
      omega
  | some greatest =>
      have member := (consecutive greatest).1 (List.mem_of_getLast? last)
      obtain ⟨before, split⟩ := List.getLast?_eq_some_iff.1 last
      have top : ∀ value ∈ values, value ≤ greatest := by
        intro value among
        rw [split, List.pairwise_append] at ascends
        rw [split, List.mem_append, List.mem_singleton] at among
        rcases among with earlier | rfl
        · exact ascends.2.2 value earlier greatest List.mem_cons_self
        · exact Nat.le_refl _
      have highest := top (count - 1) ((consecutive (count - 1)).2 (by omega))
      rw [Option.getD_some]
      omega

/-- A location that opens is none that never opens. -/
theorem WorldLocation.OpensAt.neverOpens_eq_false {location : WorldLocation} {vars : VariableTable}
    {states : List Progression} {number : Nat} (opens : location.OpensAt vars states number) :
    location.neverOpens vars states = false := by
  obtain ⟨⟨state, found, isOpen⟩, _⟩ := opens
  exact List.all_eq_false.2 ⟨state, List.mem_of_getElem? found, by simp [isOpen]⟩

namespace Report.Records

variable {report : Report} {chronicle : Chronicle} {world : World} {initial : Progression}
  {items : List WorldItem} {locations : List WorldLocation}

/-- The placements and what was missed use up the locations of the world. -/
theorem exists_occupies (records : report.Records chronicle)
    (tells : chronicle.Tells world.manager initial items locations)
    (sameLocations : locations.map WorldLocation.access =
      world.locations.map WorldLocation.access) :
    ∃ used missed, report.Occupies world used missed := by
  obtain ⟨free, drawn⟩ := records.locations
  let used := report.placements.map fun placement => placement.location.access
  let missed := chronicle.final.unreached.map WorldLocation.access
  have parts : (used ++ missed ++ free.map WorldLocation.access).Perm
      (world.locations.map WorldLocation.access) := by
    have opened := (drawn.map WorldLocation.access).append_right missed
    rw [List.map_append, List.map_map, ← List.map_append] at opened
    rw [← sameLocations]
    refine List.Perm.trans ?_ (opened.trans tells.covers)
    rw [List.append_assoc, List.append_assoc]
    exact List.perm_append_comm.append_left used
  obtain ⟨positions, apart, shown⟩ := exists_positions parts
  rw [List.map_append, List.map_append] at shown
  obtain ⟨front, freePositions, rfl, shownFront, _⟩ := List.map_eq_append_iff.1 shown
  obtain ⟨usedPositions, missedPositions, rfl, shownUsed, shownMissed⟩ :=
    List.map_eq_append_iff.1 shownFront
  refine ⟨usedPositions, missedPositions, (List.nodup_append.1 apart).1, ?_, ?_⟩
  · rw [shownUsed, List.map_map]
    rfl
  · have named := congrArg (List.map (Option.map fun access => access.1.name)) shownMissed
    rw [List.map_map, List.map_map, List.map_map] at named
    simp only [Function.comp_def, Option.map_map] at named
    rw [records.unreachable, List.map_map]
    exact named

/-- A placement at a listed name is at another location of that name. -/
theorem unlisted (records : report.Records chronicle)
    (tells : chronicle.Tells world.manager initial items locations)
    (sameLocations : locations.map WorldLocation.access =
      world.locations.map WorldLocation.access)
    {placement : Placement WorldItem WorldLocation} (member : placement ∈ report.placements)
    (listed : placement.location.name ∈ report.unreachable) :
    ∃ other ∈ world.locations, other.name = placement.location.name ∧
      other.access ≠ placement.location.access := by
  rw [records.unreachable, tells.unreached] at listed
  obtain ⟨missed, left, sameName⟩ := List.mem_map.1 listed
  obtain ⟨among, never⟩ := List.mem_filter.1 left
  have source : missed.access ∈ world.locations.map WorldLocation.access := by
    rw [← sameLocations]
    exact List.mem_map_of_mem among
  obtain ⟨other, inside, sameAccess⟩ := List.mem_map.1 source
  refine ⟨other, inside, (WorldLocation.name_eq_of_access sameAccess).trans sameName, ?_⟩
  intro same
  have opens := tells.opensAt placement.location (records.opened member)
  rw [(opens.of_access (same.symm.trans sameAccess)).neverOpens_eq_false] at never
  cases never

/-- A report that records a chronicle allots the world. -/
theorem allots (records : report.Records chronicle)
    (tells : chronicle.Tells world.manager initial items locations)
    (sameItems : (items.map WorldItem.nature).Perm (world.items.map WorldItem.nature))
    (sameLocations : locations.map WorldLocation.access =
      world.locations.map WorldLocation.access) : report.Allots world := by
  have ascends := tells.ascends
  rw [← records.map_sphere] at ascends
  have consecutive : ∀ sphere,
      sphere ∈ report.placements.map (fun placement => placement.item.sphere) ↔
        1 ≤ sphere ∧ sphere < report.spheres := by
    intro sphere
    rw [records.map_sphere, List.mem_map]
    exact records.exists_sphere_iff sphere
  exact {
    items := records.natures_perm tells sameItems
    locations := records.exists_occupies tells sameLocations
    unlisted := fun _ member => records.unlisted tells sameLocations member
    forward := records.forward
    ascends := ascends
    consecutive := fun sphere => List.mem_map.symm.trans (consecutive sphere)
    spheres := eq_getLast_succ_of_ascends ascends records.spheres_pos consecutive }

end Report.Records

namespace World

/-- The report of every run that succeeds gives each item one location of its own, sphere after
sphere. -/
theorem allots_of_run {σ : Type} {world : World} {generator : Generator} {config : RunConfig}
    {initial : Progression} {constraints : List (Constraint σ WorldItem WorldLocation)}
    {memory : σ} {report : Report}
    (ran : (world.runWith generator config initial constraints memory).1 = .ok report) :
    report.Allots world := by
  obtain ⟨items, locations, chronicle, sameItems, sameLocations, tells, records⟩ :=
    exists_records ran
  exact records.allots tells sameItems sameLocations

/-- The cliff gives its three items one location each. -/
theorem allots_of_run_cliff :
    ∃ report, (cliff.run .light ∅ ([] : List (Constraint Unit _ _)) ()).1 = .ok report ∧
      report.unreachable = ["Vault"] ∧ report.placements.length = 3 ∧ report.Allots cliff := by
  obtain ⟨report, ran, unreachable, three⟩ := run_cliff
  exact ⟨report, ran, unreachable, three, allots_of_run ran⟩

end World

end Randomizer
