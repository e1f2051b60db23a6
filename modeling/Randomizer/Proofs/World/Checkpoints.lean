import Randomizer.Proofs.World.Attempts

namespace Randomizer

namespace WorldLocation

/-- What the states say about locations depends on nothing but their logic and costs. -/
theorem map_name_filter_neverOpens {first second : List WorldLocation}
    (same : first.map access = second.map access) (vars : VariableTable)
    (states : List Progression) :
    (first.filter (·.neverOpens vars states)).map name =
      (second.filter (·.neverOpens vars states)).map name := by
  induction first generalizing second with
  | nil =>
      rw [List.map_eq_nil_iff.1 same.symm]
  | cons location rest ih =>
      cases second with
      | nil => cases same
      | cons other others =>
          obtain ⟨sameFirst, sameRest⟩ := List.cons.inj same
          have sameName := name_eq_of_access sameFirst
          have sameTest : location.neverOpens vars states = other.neverOpens vars states := by
            simp only [neverOpens, isOpen_eq_of_access sameFirst]
          rw [List.filter_cons, List.filter_cons, sameTest]
          split
          · rw [List.map_cons, List.map_cons, sameName, ih sameRest]
          · exact ih sameRest

/-- Locations that open alike open at the same number. -/
theorem exists_opensAt_of_access {first second : List WorldLocation}
    (same : first.map access = second.map access) {vars : VariableTable}
    {states : List Progression} {number : Nat}
    (opens : ∃ location ∈ first, location.OpensAt vars states number) :
    ∃ location ∈ second, location.OpensAt vars states number := by
  obtain ⟨location, member, opens⟩ := opens
  have among : location.access ∈ second.map access := by
    rw [← same]
    exact List.mem_map_of_mem member
  obtain ⟨other, within, sameAccess⟩ := List.mem_map.1 among
  exact ⟨other, within, opens.of_access sameAccess.symm⟩

end WorldLocation

/-- A report that agrees with the states of a play of its items. A placed location opens at the
state after the items of its own and earlier spheres. A sphere starts with the first item and after
each state at which some location opens. Locations that open at no state are out of reach. -/
structure Report.FollowsPlay (report : Report) (world : World) (initial : Progression)
    (states : List Progression) : Prop where
  replay : world.manager.replay (world.manager.settle initial)
    (report.placements.map fun placement => placement.item.item) = .ok states
  opensAt : ∀ placement ∈ report.placements,
    placement.location.OpensAt world.manager.vars states
      (report.placements.countP fun other => other.item.sphere ≤ placement.location.sphere)
  startsAt_iff : ∀ number < report.placements.length,
    StartsAt (report.placements.map fun placement => placement.item.sphere) number ↔
      number = 0 ∨
        ∃ location ∈ world.locations, location.OpensAt world.manager.vars states number
  unreachable : report.unreachable =
    (world.locations.filter (·.neverOpens world.manager.vars states)).map WorldLocation.name
  finalState : states.getLast? = some report.finalState

namespace Report.Records

variable {report : Report} {chronicle : Chronicle}

/-- The placements have the items of the chronicle, but for their ranks. -/
theorem map_nature (records : report.Records chronicle) :
    report.placements.map (fun placement => placement.item.nature) =
      chronicle.items.map WorldItem.nature := by
  have both := congrArg (List.map Prod.fst) records.items
  rwa [List.map_map, List.map_map] at both

/-- The placements have the items of the chronicle, in order. -/
theorem map_item (records : report.Records chronicle) :
    report.placements.map (fun placement => placement.item.item) =
      chronicle.items.map WorldItem.item := by
  have both := congrArg (List.map Prod.fst) records.map_nature
  rwa [List.map_map, List.map_map] at both

/-- The placements have the spheres of the chronicle's items. -/
theorem map_sphere (records : report.Records chronicle) :
    report.placements.map (fun placement => placement.item.sphere) =
      chronicle.items.map WorldItem.sphere := by
  have both := congrArg (List.map Prod.snd) records.items
  rwa [List.map_map, List.map_map] at both

/-- As many placements are up to a depth as items of the chronicle. -/
theorem countP_sphere (records : report.Records chronicle) (depth : Nat) :
    report.placements.countP (fun placement => placement.item.sphere ≤ depth) =
      chronicle.items.countP fun item => item.sphere ≤ depth := by
  have both := congrArg (List.countP (· ≤ depth)) records.map_sphere
  rwa [List.countP_map, List.countP_map] at both

/-- Placed locations were opened. -/
theorem opened (records : report.Records chronicle) {placement : Placement WorldItem WorldLocation}
    (member : placement ∈ report.placements) : placement.location ∈ chronicle.opened := by
  obtain ⟨free, drawn⟩ := records.locations
  exact drawn.mem_iff.1 (List.mem_append_left free (List.mem_map_of_mem member))

variable {world : World} {initial : Progression} {items : List WorldItem}
  {locations : List WorldLocation}

/-- The items of a world are placed once each. -/
theorem natures_perm (records : report.Records chronicle)
    (tells : chronicle.Tells world.manager initial items locations)
    (sameItems : (items.map WorldItem.nature).Perm (world.items.map WorldItem.nature)) :
    (report.placements.map fun placement => placement.item.nature).Perm
      (world.items.map WorldItem.nature) := by
  rwa [records.map_nature, tells.natures]

/-- A report that records a chronicle follows its play. -/
theorem followsPlay (records : report.Records chronicle)
    (tells : chronicle.Tells world.manager initial items locations)
    (sameLocations : locations.map WorldLocation.access =
      world.locations.map WorldLocation.access) :
    report.FollowsPlay world initial chronicle.states := by
  have sameLength : report.placements.length = chronicle.items.length := by
    simpa using congrArg List.length records.map_sphere
  constructor
  · rw [records.map_item]
    exact tells.replay
  · intro placement member
    rw [records.countP_sphere]
    exact tells.opensAt placement.location (records.opened member)
  · intro number inside
    rw [sameLength] at inside
    rw [records.map_sphere, tells.startsAt_iff number inside]
    exact or_congr_right ⟨WorldLocation.exists_opensAt_of_access sameLocations,
      WorldLocation.exists_opensAt_of_access sameLocations.symm⟩
  · rw [records.unreachable, tells.unreached]
    exact WorldLocation.map_name_filter_neverOpens sameLocations world.manager.vars chronicle.states
  · rw [records.finalState]
    exact tells.getLast?

end Report.Records

namespace World

variable {σ : Type} {world : World} {generator : Generator} {config : RunConfig}
  {initial : Progression} {constraints : List (Constraint σ WorldItem WorldLocation)} {memory : σ}
  {report : Report}

/-- The report of every run that succeeds follows the play of its items. -/
theorem exists_followsPlay
    (ran : (world.runWith generator config initial constraints memory).1 = .ok report) :
    ∃ states, report.FollowsPlay world initial states := by
  obtain ⟨items, locations, chronicle, _, sameLocations, tells, records⟩ := exists_records ran
  exact ⟨chronicle.states, records.followsPlay tells sameLocations⟩

/-- A gate that is open, a nest up a ledge that takes a cloak, a shop that asks for some coins and a
vault that asks for more than a purse and a chest hold together. -/
def cliff : World where
  manager := {
    terms := ⟨["Cloak", "Coins", "Ledge"], by decide⟩
    macros := ∅
    resolver := Resolver.integers
    vars := ∅
    definitions := .ofList [("Gate", ⟨"Gate", [-3]⟩), ("Nest", ⟨"Nest", [2]⟩),
      ("Shop", ⟨"Shop", [-3]⟩), ("Vault", ⟨"Vault", [-3]⟩)]
    items := .ofList [("Cloak", .bool "Cloak" ⟨0⟩), ("Purse", .single "Purse" ⟨⟨1⟩, 6⟩),
      ("Chest", .single "Chest" ⟨⟨1⟩, 5⟩)]
    transitions := ∅
    waypoints := .ofList [("Ledge", ⟨⟨2⟩, ⟨"Ledge", [0]⟩⟩)] }
  items := [.ofItem (.bool "Cloak" ⟨0⟩), .ofItem (.single "Purse" ⟨⟨1⟩, 6⟩),
    .ofItem (.single "Chest" ⟨⟨1⟩, 5⟩)]
  locations := [.ofDefinition ⟨"Gate", [-3]⟩, .ofDefinition ⟨"Nest", [2]⟩,
    (WorldLocation.ofDefinition ⟨"Shop", [-3]⟩).addCost (.threshold ⟨⟨1⟩, 5⟩),
    (WorldLocation.ofDefinition ⟨"Vault", [-3]⟩).addCost (.threshold ⟨⟨1⟩, 12⟩)]

/-- The run on the cliff places all items and misses the vault. -/
theorem run_cliff : ∃ report,
    (cliff.run .light ∅ ([] : List (Constraint Unit _ _)) ()).1 = .ok report ∧
      report.unreachable = ["Vault"] ∧ report.placements.length = 3 := by
  have ran : (cliff.run .light ∅ ([] : List (Constraint Unit _ _)) ()).1.toOption.map
      (fun report => (report.unreachable, report.placements.length)) = some (["Vault"], 3) := by
    decide +kernel
  obtain ⟨report, found, facts⟩ := Option.map_eq_some_iff.1 ran
  exact ⟨report, Except.toOption_eq_some_iff.1 found, Prod.mk.inj facts⟩

/-- The report on the cliff follows its play. -/
theorem exists_followsPlay_cliff :
    ∃ report, (cliff.run .light ∅ ([] : List (Constraint Unit _ _)) ()).1 = .ok report ∧
      report.unreachable = ["Vault"] ∧ report.placements.length = 3 ∧
      ∃ states, report.FollowsPlay cliff ∅ states := by
  obtain ⟨report, ran, unreachable, three⟩ := run_cliff
  exact ⟨report, ran, unreachable, three, exists_followsPlay ran⟩

end World

end Randomizer
