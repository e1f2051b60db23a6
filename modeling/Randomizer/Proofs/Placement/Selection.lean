import Randomizer.Placement.Strategy
import Randomizer.Proofs.Outcome
import Randomizer.Proofs.SortedList

namespace Randomizer

section Pools

variable {μ : Type}

/-- A candidate at the place of one of the locations that follow an index of a pool. -/
def Candidate.Among (candidate : Candidate μ) (pool index : Nat) (list : List μ) : Prop :=
  candidate.pool = pool ∧ ∃ offset, candidate.index = index + offset ∧
    list[offset]? = some candidate.location

theorem Candidate.Among.head (pool index : Nat) (location : μ) (rest : List μ) {adjusted : Binary32}
    {satisfied : Bool} :
    Among ⟨pool, index, location, adjusted, satisfied⟩ pool index (location :: rest) :=
  ⟨rfl, 0, rfl, rfl⟩

/-- A candidate among later locations is among all of them. -/
theorem Candidate.Among.cons {candidate : Candidate μ} {pool index : Nat} {location : μ}
    {rest : List μ} (among : candidate.Among pool (index + 1) rest) :
    candidate.Among pool index (location :: rest) := by
  obtain ⟨here, offset, place, found⟩ := among
  exact ⟨here, offset + 1, by omega, found⟩

variable [Participant μ]

/-- The free location at a candidate's place in the pools. -/
def Candidate.In (candidate : Candidate μ) (pools : List (Pool μ)) : Prop :=
  ∃ pool, pools[candidate.pool]? = some pool ∧
    pool.items[candidate.index]? = some candidate.location

/-- The location of a candidate is one of the pools'. -/
theorem Candidate.In.mem {candidate : Candidate μ} {pools : List (Pool μ)}
    (within : candidate.In pools) : candidate.location ∈ pools.flatMap SortedList.items := by
  obtain ⟨pool, found, inside⟩ := within
  exact List.mem_flatMap.2 ⟨pool, List.mem_of_getElem? found, List.mem_of_getElem? inside⟩

/-- A list is an element of it and the rest. -/
theorem perm_cons_eraseIdx {α : Type} {list : List α} {index : Nat} {element : α}
    (found : list[index]? = some element) : list.Perm (element :: list.eraseIdx index) := by
  induction list generalizing index with
  | nil => cases found
  | cons first rest ih =>
      cases index with
      | zero =>
          cases found
          exact List.Perm.refl _
      | succ index => exact ((ih found).cons first).trans (List.Perm.swap element first _)

/-- Taking a location out of one pool leaves all others. -/
theorem flatMap_items_eraseIndex {pools : List (Pool μ)} {pool : Pool μ} {position index : Nat}
    {location : μ} (foundPool : pools[position]? = some pool)
    (found : pool.items[index]? = some location) :
    (pools.flatMap SortedList.items).Perm (location ::
      (pools.modify position fun pool => pool.eraseIndex index).flatMap SortedList.items) := by
  induction pools generalizing position with
  | nil => cases foundPool
  | cons first rest ih =>
      cases position with
      | zero =>
          cases foundPool
          exact (perm_cons_eraseIdx found).append_right _
      | succ position =>
          rw [List.modify_succ_cons, List.flatMap_cons, List.flatMap_cons]
          exact ((ih foundPool).append_left _).trans List.perm_middle

namespace Side

/-- Removing takes the one location out and leaves all others. -/
theorem locations_remove (side : Side μ) {candidate : Candidate μ}
    (within : candidate.In side.pools) :
    side.locations.Perm
      (candidate.location :: (side.remove candidate.pool candidate.index).locations) := by
  obtain ⟨pool, foundPool, found⟩ := within
  exact flatMap_items_eraseIndex foundPool found

/-- A completed sphere adds its locations. -/
theorem locations_complete (side : Side μ) (mean : Option Binary32) (locations : List μ) :
    (side.complete mean locations).locations.Perm (side.locations ++ locations) := by
  simp only [Side.locations, complete, List.flatMap_append, List.flatMap_cons, List.flatMap_nil,
    List.append_nil]
  exact (SortedList.items_ofList_perm locations).append_left _

/-- No head is left just when nothing is. -/
theorem takeLowest?_eq_none_iff {pools : List (Pool μ)} :
    takeLowest? pools = none ↔ pools.flatMap SortedList.items = [] := by
  induction pools with
  | nil => simp [takeLowest?]
  | cons pool rest ih =>
      rw [takeLowest?, List.flatMap_cons, List.append_eq_nil_iff, ← ih]
      cases first : pool.min? with
      | none =>
          rw [SortedList.items_eq_nil_of_min? first]
          cases takeLowest? rest <;> simp
      | some head =>
          rw [SortedList.items_of_min? first]
          cases takeLowest? rest with
          | none => simp
          | some lowest =>
              dsimp only
              split <;> simp

/-- The lowest is the head of one pool, which loses it. -/
theorem takeLowest?_eq_some {pools rest : List (Pool μ)} {lowest : μ}
    (taken : takeLowest? pools = some (lowest, rest)) :
    ∃ position pool, pools[position]? = some pool ∧ pool.min? = some lowest ∧
      rest = pools.modify position fun pool => pool.eraseIndex 0 := by
  induction pools generalizing lowest rest with
  | nil => cases taken
  | cons pool others ih =>
      have later {low : μ} {remaining : List (Pool μ)}
          (takenLater : takeLowest? others = some (low, remaining)) :
          ∃ position source, (pool :: others)[position]? = some source ∧
            source.min? = some low ∧ pool :: remaining =
              (pool :: others).modify position fun pool => pool.eraseIndex 0 := by
        obtain ⟨position, source, found, first, left⟩ := ih takenLater
        exact ⟨position + 1, source, found, first, congrArg (pool :: ·) left⟩
      have here {head : μ} (first : pool.min? = some head) :
          ∃ position source, (pool :: others)[position]? = some source ∧
            source.min? = some head ∧ pool.eraseIndex 0 :: others =
              (pool :: others).modify position fun pool => pool.eraseIndex 0 :=
        ⟨0, pool, rfl, first, rfl⟩
      rw [takeLowest?] at taken
      split at taken
      · cases taken
      · next found =>
        cases taken
        exact later found
      · next first _ =>
        cases taken
        exact here first
      · next first found =>
        split at taken
        · cases taken
          exact later found
        · cases taken
          exact here first

/-- Taking the lowest head out of the pools leaves all others. -/
theorem locations_takeLowest {pools rest : List (Pool μ)} {lowest : μ}
    (taken : takeLowest? pools = some (lowest, rest)) :
    (pools.flatMap SortedList.items).Perm (lowest :: rest.flatMap SortedList.items) := by
  obtain ⟨position, pool, foundPool, first, rfl⟩ := takeLowest?_eq_some taken
  rw [SortedList.min?, List.head?_eq_getElem?] at first
  exact flatMap_items_eraseIndex foundPool first

end Side

end Pools

namespace Strategy

variable {σ ι μ : Type} [Participant μ]

@[simp] theorem side_setSide (strategy : Strategy σ ι μ) (direction : Direction) (side : Side μ) :
    (strategy.setSide direction side).side direction = side := by
  cases direction <;> rfl

/-- Setting a side leaves the other. -/
theorem side_setSide_of_ne (strategy : Strategy σ ι μ) {direction other : Direction}
    (apart : direction ≠ other) (side : Side μ) :
    (strategy.setSide direction side).side other = strategy.side other := by
  cases direction <;> cases other
  · exact absurd rfl apart
  · rfl
  · rfl
  · exact absurd rfl apart

/-- A scan of a pool ends on what it held or on one of the pool's locations. -/
theorem best_scanPool (strategy : Strategy σ ι μ) (item : ι) (depth priorityDepth pool : Nat)
    {index : Nat} {list : List μ} {scan : Scan μ} {best : Candidate μ}
    (ends : (strategy.scanPool item depth priorityDepth pool index list scan).best = some best) :
    scan.best = some best ∨ best.Among pool index list := by
  induction list generalizing index scan with
  | nil => exact .inl ends
  | cons location rest ih =>
      simp only [scanPool] at ends
      split at ends
      · exact (ih ends).imp_right .cons
      · split at ends
        · split at ends
          · cases ends
            exact .inr (.head pool index location rest)
          · rcases ih ends with held | later
            · cases held
              exact .inr (.head pool index location rest)
            · exact .inr later.cons
        · exact (ih ends).imp_right .cons

/-- A scan of pools ends on what it held or on one of the pools' locations. -/
theorem best_scanPools (strategy : Strategy σ ι μ) (item : ι) (depth priorityDepth : Nat)
    {position : Nat} {pools : List (Pool μ)} {scan : Scan μ} {best : Candidate μ}
    (ends : (strategy.scanPools item depth priorityDepth position pools scan).best = some best) :
    scan.best = some best ∨ ∃ offset pool, pools[offset]? = some pool ∧
      best.Among (position + offset) 0 pool.items := by
  induction pools generalizing position scan with
  | nil => exact .inl ends
  | cons pool rest ih =>
      rcases ih ends with held | ⟨offset, other, found, among⟩
      · exact (best_scanPool strategy item depth priorityDepth position held).imp_right
          fun among => ⟨0, pool, rfl, among⟩
      · rw [Nat.add_right_comm] at among
        exact .inr ⟨offset + 1, other, found, among⟩

/-- A scan that has come to some location holds one. -/
theorem isSome_best_scanPool (strategy : Strategy σ ι μ) (item : ι)
    (depth priorityDepth pool : Nat) {index : Nat} {list : List μ} {scan : Scan μ}
    (started : scan.best.isSome ∨ list ≠ []) :
    (strategy.scanPool item depth priorityDepth pool index list scan).best.isSome := by
  induction list generalizing index scan with
  | nil => exact started.resolve_right fun nonempty => nonempty rfl
  | cons location rest ih =>
      simp only [scanPool]
      split
      · next skips =>
        refine ih (.inl ?_)
        unfold Scan.skips at skips
        split at skips
        · next held => rw [held]; rfl
        · cases skips
      · split
        · split
          · rfl
          · exact ih (.inl rfl)
        · next worse =>
          refine ih (.inl ?_)
          unfold Scan.improves at worse
          split at worse
          · next held => exact held ▸ rfl
          · exact absurd rfl worse

/-- A scan of pools that has come to some location holds one. -/
theorem isSome_best_scanPools (strategy : Strategy σ ι μ) (item : ι) (depth priorityDepth : Nat)
    {position : Nat} {pools : List (Pool μ)} {scan : Scan μ}
    (started : scan.best.isSome ∨ pools.flatMap SortedList.items ≠ []) :
    (strategy.scanPools item depth priorityDepth position pools scan).best.isSome := by
  induction pools generalizing position scan with
  | nil => exact started.resolve_right fun nonempty => nonempty rfl
  | cons pool rest ih =>
      rcases started with held | nonempty
      · exact ih (.inl (isSome_best_scanPool strategy item _ _ _ (.inl held)))
      · by_cases empty : pool.items = []
        · rw [List.flatMap_cons, empty, List.nil_append] at nonempty
          exact ih (.inr nonempty)
        · exact ih (.inl (isSome_best_scanPool strategy item _ _ _ (.inr empty)))

variable [Participant ι]

/-- A scan ends on a free location of its side. -/
theorem best_scan {strategy : Strategy σ ι μ} {direction : Direction} {depth : Nat} {item : ι}
    {best : Candidate μ} (ends : (strategy.scan direction depth item).best = some best) :
    best.In (strategy.side direction).pools := by
  rcases best_scanPools strategy item depth _ ends with start | ⟨position, pool, found, among⟩
  · cases start
  · obtain ⟨here, offset, place, inside⟩ := among
    rw [Nat.zero_add] at here place
    exact ⟨pool, here ▸ found, place ▸ inside⟩

/-- While locations are left, a scan ends on one. -/
theorem exists_best_scan {strategy : Strategy σ ι μ} {direction : Direction} (depth : Nat)
    (item : ι) (remaining : (strategy.side direction).remaining ≠ 0) :
    ∃ best, (strategy.scan direction depth item).best = some best := by
  have nonempty : (strategy.side direction).locations ≠ [] :=
    mt List.length_eq_zero_iff.2 remaining
  exact Option.isSome_iff_exists.1 (isSome_best_scanPools strategy item depth _ (.inr nonempty))

/-- A selection takes one free location of its side. -/
theorem locations_selectFrom {direction : Direction} {depth : Nat} {group : String} {item : ι}
    {strategy next : Strategy σ ι μ} {location : μ}
    (selected : selectFrom direction depth group item strategy = .ok location next) :
    (strategy.side direction).locations.Perm (location :: (next.side direction).locations) := by
  simp only [selectFrom] at selected
  split at selected
  · cases selected
  next best found =>
    split at selected
    · cases selected
    · cases selected
      rw [side_setSide]
      exact Side.locations_remove _ (best_scan found)

/-- While locations are left, a selection succeeds when the hooks accept the best location. -/
theorem exists_selectFrom {strategy : Strategy σ ι μ} (direction : Direction) (depth : Nat)
    (group : String) (item : ι) (remaining : (strategy.side direction).remaining ≠ 0)
    (accepted : ∀ best, (strategy.scan direction depth item).best = some best →
      ∃ memory, Constraint.reject strategy.constraints item best.location strategy.memory =
        .ok () memory) :
    ∃ location next, selectFrom direction depth group item strategy = .ok location next := by
  obtain ⟨best, found⟩ := exists_best_scan depth item remaining
  obtain ⟨memory, taken⟩ := accepted best found
  simp only [selectFrom, found, taken]
  exact ⟨_, _, rfl⟩

/-- Items that are given locations one after another. -/
def selectAll (direction : Direction) (depth : Nat) (group : String) (items : List ι) :
    EStateM Error (Strategy σ ι μ) (List (Placement ι μ)) :=
  items.mapM fun item => do
    let location ← selectFrom direction depth group item
    return ⟨item, location⟩

/-- Items are selected for one after another. -/
theorem selectAll_cons (direction : Direction) (depth : Nat) (group : String) (item : ι)
    (rest : List ι) :
    selectAll direction depth group (item :: rest) =
      ((do
        let location ← selectFrom direction depth group item
        let others ← selectAll direction depth group rest
        return ⟨item, location⟩ :: others) :
          EStateM Error (Strategy σ ι μ) (List (Placement ι μ))) := by
  rw [selectAll, List.mapM_cons, bind_assoc]
  rfl

/-- A run over items keeps what each selection keeps. -/
theorem keeps_selectAll {direction : Direction} {depth : Nat} {group : String}
    {keep : Strategy σ ι μ → Prop}
    (each : ∀ item, EStateM.Keeps (selectFrom direction depth group item) keep) (items : List ι) :
    EStateM.Keeps (selectAll direction depth group items) keep :=
  EStateM.keeps_mapM (fun item => (each item).bind fun _ => EStateM.keeps_pure _) items

/-- Items placed one after another take one free location each. -/
theorem locations_selectAll {direction : Direction} {depth : Nat} {group : String} {items : List ι}
    {strategy next : Strategy σ ι μ} {placements : List (Placement ι μ)}
    (selected : selectAll direction depth group items strategy = .ok placements next) :
    placements.map Placement.item = items ∧
      (strategy.side direction).locations.Perm
        (placements.map Placement.location ++ (next.side direction).locations) := by
  induction items generalizing strategy placements with
  | nil =>
      cases selected
      exact ⟨rfl, List.Perm.refl _⟩
  | cons item rest ih =>
      rw [selectAll_cons] at selected
      obtain ⟨location, middle, taken, continued⟩ := EStateM.bind_eq_ok_iff.1 selected
      obtain ⟨others, last, selectedRest, collected⟩ := EStateM.bind_eq_ok_iff.1 continued
      cases collected
      obtain ⟨sameItems, fewer⟩ := ih selectedRest
      exact ⟨congrArg (item :: ·) sameItems,
        (locations_selectFrom taken).trans (fewer.cons location)⟩

/-- A sphere is completed just when all its items got locations. -/
theorem placeSphere_cases (strategy : Strategy σ ι μ) (direction : Direction)
    (sphere : Sphere ι μ) :
    (∃ placements middle,
      selectAll direction sphere.depth sphere.group sphere.items strategy =
        .ok placements middle ∧
      placeSphere direction sphere strategy = .ok placements (middle.setSide direction
        ((middle.side direction).complete (Participant.meanPriority? sphere.items)
          sphere.locations))) ∨
    ∃ error next,
      selectAll direction sphere.depth sphere.group sphere.items strategy = .error error next ∧
      placeSphere direction sphere strategy = .error error next := by
  cases ran : selectAll direction sphere.depth sphere.group sphere.items strategy with
  | ok placements middle => exact .inl ⟨placements, middle, rfl, EStateM.bind_of_ok ran⟩
  | error error next => exact .inr ⟨error, next, rfl, EStateM.bind_of_error ran⟩

/-- What a sphere that was placed in one direction did to a side. -/
structure Placed (direction : Direction) (sphere : Sphere ι μ) (strategy next : Strategy σ ι μ)
    (placements : List (Placement ι μ)) : Prop where
  items : placements.map Placement.item = sphere.items
  taken : ∀ placement ∈ placements,
    placement.location ∈ (strategy.side direction).locations
  locations : ((strategy.side direction).locations ++ sphere.locations).Perm
    (placements.map Placement.location ++ (next.side direction).locations)

/-- A sphere that succeeds has placed its items and opened its locations. -/
theorem placed_placeSphere {direction : Direction} {sphere : Sphere ι μ}
    {strategy next : Strategy σ ι μ} {placements : List (Placement ι μ)}
    (ran : placeSphere direction sphere strategy = .ok placements next) :
    Placed direction sphere strategy next placements := by
  obtain ⟨selected, middle, ranItems, continued⟩ := EStateM.bind_eq_ok_iff.1 ran
  obtain ⟨_, after, completed, built⟩ := EStateM.bind_eq_ok_iff.1 continued
  cases completed
  cases built
  obtain ⟨sameItems, fewer⟩ := locations_selectAll ranItems
  refine ⟨sameItems, fun placement member => ?_, ?_⟩
  · rw [fewer.mem_iff]
    exact List.mem_append_left _ (List.mem_map_of_mem member)
  · rw [side_setSide]
    have joined := (Side.locations_complete (middle.side direction)
      (Participant.meanPriority? sphere.items) sphere.locations).symm.append_left
        (placements.map Placement.location)
    rw [← List.append_assoc] at joined
    exact (fewer.append_right _).trans joined

end Strategy

end Randomizer
