import Randomizer.Proofs.Placement.Stability

namespace Randomizer

namespace Constraint

variable {σ ι μ : Type}

/-- Hooks that run one after another, up to and including the first that fails. -/
inductive Runs (item : ι) (location : μ) :
    List (Constraint σ ι μ) → σ → EStateM.Result Error σ Unit → Prop where
  | done (memory : σ) : Runs item location [] memory (.ok () memory)
  | accepts {constraint : Constraint σ ι μ} {rest : List (Constraint σ ι μ)} {memory middle : σ}
      {answer : EStateM.Result Error σ Unit} :
      constraint.onViolated item location memory = .ok () middle →
      Runs item location rest middle answer →
      Runs item location (constraint :: rest) memory answer
  | fails {constraint : Constraint σ ι μ} {rest : List (Constraint σ ι μ)} {memory last : σ}
      {error : Error} : constraint.onViolated item location memory = .error error last →
      Runs item location (constraint :: rest) memory (.error error last)

/-- The constraints that a location violates for an item, in their order. -/
def violated (constraints : List (Constraint σ ι μ)) (item : ι) (location : μ) :
    List (Constraint σ ι μ) :=
  constraints.filter fun constraint => !constraint.isSatisfied item location

/-- No constraint is violated just if all are satisfied. -/
theorem violated_eq_nil_iff {constraints : List (Constraint σ ι μ)} {item : ι} {location : μ} :
    violated constraints item location = [] ↔
      constraints.all (·.isSatisfied item location) := by
  rw [violated, List.filter_eq_nil_iff, List.all_eq_true]
  simp

/-- A loop over constraints runs their hooks up to the first that fails. -/
theorem runs_forM (item : ι) (location : μ) (constraints : List (Constraint σ ι μ)) (memory : σ) :
    Runs item location constraints memory
      (constraints.forM (·.onViolated item location) memory) := by
  induction constraints generalizing memory with
  | nil => exact .done memory
  | cons constraint rest ih =>
      change Runs item location _ _ ((constraint.onViolated item location >>= fun _ =>
        rest.forM (·.onViolated item location)) memory)
      cases ran : constraint.onViolated item location memory with
      | ok answer middle =>
          rw [EStateM.bind_of_ok ran]
          exact .accepts ran (ih middle)
      | error error last =>
          rw [EStateM.bind_of_error ran]
          exact .fails ran

/-- The hooks of the violated constraints run, and no others. -/
theorem runs_reject (constraints : List (Constraint σ ι μ)) (item : ι) (location : μ)
    (memory : σ) : Runs item location (violated constraints item location) memory
      (reject constraints item location memory) :=
  runs_forM item location _ memory

/-- Where nothing is violated no hook runs. -/
theorem reject_of_satisfied {constraints : List (Constraint σ ι μ)} {item : ι} {location : μ}
    (satisfied : constraints.all (·.isSatisfied item location)) (memory : σ) :
    reject constraints item location memory = .ok () memory := by
  have nothing := violated_eq_nil_iff.2 satisfied
  rw [violated] at nothing
  rw [reject, nothing]
  rfl

end Constraint

namespace Side

variable {μ : Type} [Participant μ]

/-- The later side is without one of the locations, and all others are in their places. -/
def LosesOnly (side later : Side μ) (location : μ) : Prop :=
  later.means = side.means ∧ ∃ older pool newer first rest,
    side.pools = older ++ pool :: newer ∧ pool.items = first ++ location :: rest ∧
      later.pools = older ++ ⟨first ++ rest⟩ :: newer

/-- Removing a candidate takes its location out and no other. -/
theorem losesOnly_remove {side : Side μ} {candidate : Candidate μ}
    (within : candidate.In side.pools) :
    side.LosesOnly (side.remove candidate.pool candidate.index) candidate.location := by
  obtain ⟨pool, foundPool, found⟩ := within
  obtain ⟨boundPool, rfl⟩ := List.getElem?_eq_some_iff.1 foundPool
  obtain ⟨bound, here⟩ := List.getElem?_eq_some_iff.1 found
  refine ⟨rfl, side.pools.take candidate.pool, side.pools[candidate.pool],
    side.pools.drop (candidate.pool + 1), side.pools[candidate.pool].items.take candidate.index,
    side.pools[candidate.pool].items.drop (candidate.index + 1), ?_, ?_, ?_⟩
  · rw [← List.drop_eq_getElem_cons boundPool, List.take_append_drop]
  · rw [← here, ← List.drop_eq_getElem_cons bound, List.take_append_drop]
  · rw [remove, List.modify_eq_take_cons_drop boundPool, SortedList.eraseIndex,
      List.eraseIdx_eq_take_drop_succ]

end Side

namespace Scan

variable {μ : Type} {scan : Scan μ}

/-- The scan holds a candidate that satisfies all constraints. -/
def HoldsSatisfying (scan : Scan μ) : Prop := ∃ best, scan.best = some best ∧ best.satisfied

/-- A satisfying location is never passed over. -/
theorem skips_true (scan : Scan μ) : scan.skips true = false := by
  unfold skips
  cases scan.best <;> simp

/-- A location that violates is passed over once a satisfying one is held. -/
theorem skips_false_iff : scan.skips false ↔ scan.HoldsSatisfying := by
  unfold skips HoldsSatisfying
  cases scan.best <;> simp

/-- Only a satisfying candidate is not improved on by a satisfying location. -/
theorem holdsSatisfying_of_not_improves {adjusted : Binary32}
    (worse : ¬ scan.improves true adjusted) : scan.HoldsSatisfying := by
  unfold improves at worse
  cases held : scan.best with
  | none => simp [held] at worse
  | some best =>
      simp only [held, Bool.true_and, Bool.or_eq_true, Bool.not_eq_true', not_or,
        Bool.not_eq_false] at worse
      exact ⟨best, held, worse.1⟩

end Scan

namespace Strategy

variable {σ ι μ : Type} [Participant μ]

/-- What the scan holds satisfies the constraints just when its location does. -/
def HoldsJudged (strategy : Strategy σ ι μ) (item : ι) (scan : Scan μ) : Prop :=
  ∀ best, scan.best = some best → best.satisfied = strategy.satisfies item best.location

variable {strategy : Strategy σ ι μ} {item : ι} {depth priorityDepth : Nat} {scan : Scan μ}

/-- A scan of a pool judges its candidates by their locations. -/
theorem HoldsJudged.scanPool (judged : strategy.HoldsJudged item scan) (pool index : Nat)
    (list : List μ) : strategy.HoldsJudged item
      (strategy.scanPool item depth priorityDepth pool index list scan) := by
  induction list generalizing index scan with
  | nil => exact judged
  | cons location rest ih =>
      have here (adjusted : Binary32) (trace : List Adjustment) : strategy.HoldsJudged item
          ⟨some ⟨pool, index, location, adjusted, strategy.satisfies item location⟩, trace⟩ := by
        rintro _ ⟨⟩
        rfl
      rw [Strategy.scanPool]
      dsimp only
      split
      · exact ih judged _
      · split
        · split
          · exact here _ _
          · exact ih (here _ _) _
        · refine ih ?_ _
          exact judged

/-- A scan of pools judges its candidates by their locations. -/
theorem HoldsJudged.scanPools (judged : strategy.HoldsJudged item scan) (position : Nat)
    (pools : List (Pool μ)) : strategy.HoldsJudged item
      (strategy.scanPools item depth priorityDepth position pools scan) := by
  induction pools generalizing position scan with
  | nil => exact judged
  | cons pool rest ih => exact ih (judged.scanPool position 0 pool.items) _

/-- A candidate that satisfies all constraints is given up only for another one that does, and any
other candidate for the first that does. Nothing is asked of the priorities. -/
theorem holdsSatisfying_scanPool (pool : Nat) {index : Nat} {list : List μ}
    (started : scan.HoldsSatisfying ∨ ∃ location ∈ list, strategy.satisfies item location) :
    (strategy.scanPool item depth priorityDepth pool index list scan).HoldsSatisfying := by
  induction list generalizing index scan with
  | nil =>
      rcases started with held | ⟨location, none, _⟩
      · exact held
      · cases none
  | cons location rest ih =>
      rw [scanPool]
      cases satisfied : strategy.satisfies item location with
      | true =>
          simp only [Scan.skips_true, Bool.false_eq_true, if_false, if_true]
          split
          · exact ⟨_, rfl, rfl⟩
          · next worse => exact ih (.inl (Scan.holdsSatisfying_of_not_improves worse))
      | false =>
          have startedRest : scan.HoldsSatisfying ∨
              ∃ other ∈ rest, strategy.satisfies item other := by
            simpa [satisfied] using started
          simp only [Bool.false_eq_true, if_false]
          split
          · exact ih startedRest
          · next kept =>
            have later := startedRest.resolve_left (mt Scan.skips_false_iff.2 kept)
            split <;> exact ih (.inr later)

/-- A scan ends on a satisfying location if some pool has one. -/
theorem holdsSatisfying_scanPools {position : Nat} {pools : List (Pool μ)}
    (started : scan.HoldsSatisfying ∨
      ∃ location ∈ pools.flatMap SortedList.items, strategy.satisfies item location) :
    (strategy.scanPools item depth priorityDepth position pools scan).HoldsSatisfying := by
  induction pools generalizing position scan with
  | nil =>
      rcases started with held | ⟨location, none, _⟩
      · exact held
      · cases none
  | cons pool rest ih =>
      apply ih
      rcases started with held | ⟨location, member, satisfied⟩
      · exact .inl (holdsSatisfying_scanPool position (.inl held))
      · rcases List.mem_append.1 member with here | later
        · exact .inl (holdsSatisfying_scanPool position (.inr ⟨location, here, satisfied⟩))
        · exact .inr ⟨location, later, satisfied⟩

variable [Participant ι] {direction : Direction} {best : Candidate μ}

/-- A scan ends on a satisfying location exactly when there is one. -/
theorem satisfies_best_scan_iff (held : (strategy.scan direction depth item).best = some best) :
    strategy.satisfies item best.location ↔
      ∃ location ∈ (strategy.side direction).locations, strategy.satisfies item location := by
  constructor
  · exact fun satisfied => ⟨best.location, (best_scan held).mem, satisfied⟩
  · intro satisfiable
    have judged : strategy.HoldsJudged item (strategy.scan direction depth item) :=
      HoldsJudged.scanPools (by rintro best ⟨⟩) _ _
    have holds : (strategy.scan direction depth item).HoldsSatisfying :=
      holdsSatisfying_scanPools (.inr satisfiable)
    obtain ⟨other, heldOther, satisfied⟩ := holds
    obtain rfl := Option.some.inj (held.symm.trans heldOther)
    rw [← judged best held]
    exact satisfied

variable (strategy direction depth item) (group : String)

/-- While some location satisfies all constraints, one is taken that does, and no hook runs. -/
theorem selectFrom_of_satisfiable (satisfiable :
      ∃ location ∈ (strategy.side direction).locations, strategy.satisfies item location) :
    ∃ location next, selectFrom direction depth group item strategy = .ok location next ∧
      strategy.satisfies item location ∧ next.memory = strategy.memory := by
  have remaining : (strategy.side direction).remaining ≠ 0 := by
    obtain ⟨location, member, _⟩ := satisfiable
    exact Nat.ne_of_gt (List.length_pos_of_mem member)
  obtain ⟨best, held⟩ := exists_best_scan depth item remaining
  have satisfied := (satisfies_best_scan_iff held).2 satisfiable
  have accepted := Constraint.reject_of_satisfied satisfied strategy.memory
  simp only [selectFrom, held, accepted]
  refine ⟨_, _, rfl, satisfied, ?_⟩
  cases direction <;> rfl

/-- Otherwise the hooks of the constraints that the best location violates decide whether it is
taken. -/
theorem selectFrom_of_violated (remaining : (strategy.side direction).locations ≠ []) :
    ∃ best next, (strategy.scan direction depth item).best = some best ∧
      best.location ∈ (strategy.side direction).locations ∧
      ((Constraint.Runs item best.location
            (Constraint.violated strategy.constraints item best.location) strategy.memory
            (.ok () next.memory) ∧
          selectFrom direction depth group item strategy = .ok best.location next) ∨
        ∃ error, Constraint.Runs item best.location
            (Constraint.violated strategy.constraints item best.location) strategy.memory
            (.error error next.memory) ∧
          selectFrom direction depth group item strategy = .error error next) := by
  obtain ⟨best, held⟩ := exists_best_scan depth item (mt List.length_eq_zero_iff.1 remaining)
  have member : best.location ∈ (strategy.side direction).locations := (best_scan held).mem
  have ran := Constraint.runs_reject strategy.constraints item best.location strategy.memory
  cases answered : Constraint.reject strategy.constraints item best.location strategy.memory with
  | ok answer memory =>
      rw [answered] at ran
      simp only [selectFrom, held, answered]
      refine ⟨best, _, rfl, member, .inl ⟨?_, rfl⟩⟩
      cases direction <;> exact ran
  | error error memory =>
      rw [answered] at ran
      simp only [selectFrom, held, answered]
      refine ⟨best, _, rfl, member, .inr ⟨error, ?_, rfl⟩⟩
      exact ran

/-- Without locations the selection is exhausted, and no hook runs. -/
theorem selectFrom_of_none (nothing : (strategy.side direction).locations = []) :
    ∃ next, selectFrom direction depth group item strategy =
        .error (.exhausted group (Participant.name item)) next ∧
      next.memory = strategy.memory := by
  cases held : (strategy.scan direction depth item).best with
  | none =>
      simp only [selectFrom, held]
      exact ⟨_, rfl, rfl⟩
  | some best =>
      have member := (best_scan held).mem
      rw [Side.locations] at nothing
      rw [nothing] at member
      cases member

variable {strategy direction depth item group} {next : Strategy σ ι μ}

/-- A selection that fails takes nothing. -/
theorem side_of_selectFrom_error {error : Error}
    (failed : selectFrom direction depth group item strategy = .error error next)
    (other : Direction) : next.side other = strategy.side other := by
  simp only [selectFrom] at failed
  split at failed
  · cases failed
    cases other <;> rfl
  · split at failed
    · cases failed
      cases other <;> rfl
    · cases failed

/-- A selection takes the one location out of its place and leaves all others in theirs. -/
theorem losesOnly_of_selectFrom {location : μ}
    (selected : selectFrom direction depth group item strategy = .ok location next) :
    (strategy.side direction).LosesOnly (next.side direction) location := by
  simp only [selectFrom] at selected
  split at selected
  · cases selected
  next best held =>
    split at selected
    · cases selected
    · cases selected
      rw [side_setSide]
      exact Side.losesOnly_remove (best_scan held)

/-- Whatever the transform and the constraints are: a location that satisfies all constraints is
taken while there is one, without a hook; else the hooks of the constraints that the best location
violates run up to the first that fails, and their answer is that of the selection. An error leaves
both sides as they were, and a success takes the one location alone. -/
theorem selectFrom_preferring (strategy : Strategy σ ι μ) (direction : Direction) (depth : Nat)
    (group : String) (item : ι) :
    ((∃ location ∈ (strategy.side direction).locations, strategy.satisfies item location) →
      ∃ location next, selectFrom direction depth group item strategy = .ok location next ∧
        strategy.satisfies item location ∧ next.memory = strategy.memory) ∧
    ((strategy.side direction).locations ≠ [] →
      ∃ best next, (strategy.scan direction depth item).best = some best ∧
        best.location ∈ (strategy.side direction).locations ∧
        ((Constraint.Runs item best.location
              (Constraint.violated strategy.constraints item best.location) strategy.memory
              (.ok () next.memory) ∧
            selectFrom direction depth group item strategy = .ok best.location next) ∨
          ∃ error, Constraint.Runs item best.location
              (Constraint.violated strategy.constraints item best.location) strategy.memory
              (.error error next.memory) ∧
            selectFrom direction depth group item strategy = .error error next)) ∧
    ((strategy.side direction).locations = [] →
      ∃ next, selectFrom direction depth group item strategy =
          .error (.exhausted group (Participant.name item)) next ∧
        next.memory = strategy.memory) ∧
    (∀ error next, selectFrom direction depth group item strategy = .error error next →
      ∀ other, next.side other = strategy.side other) ∧
    ∀ location next, selectFrom direction depth group item strategy = .ok location next →
      (strategy.side direction).LosesOnly (next.side direction) location ∧
        next.side direction.other = strategy.side direction.other := by
  refine ⟨?_, ?_, ?_, ?_, ?_⟩
  · exact selectFrom_of_satisfiable strategy item depth direction group
  · exact selectFrom_of_violated strategy item depth direction group
  · exact selectFrom_of_none strategy item depth direction group
  · exact fun error next => side_of_selectFrom_error
  · exact fun location next selected => ⟨losesOnly_of_selectFrom selected,
      (keeps_selectFrom (.other direction _) depth group item).ok selected rfl⟩

/-- A transform without any number as a result, and a constraint that the first location violates
and that fails when its hook runs. -/
def ferry : Strategy Nat WorldItem WorldLocation where
  transform := .constant ⟨0x7FC00000⟩
  constraints := [⟨some "dry", fun _ location => location.name != "lake",
    some fun _ _ => do modify (· + 1); throw (.outOfLocations "dry" "boat")⟩]
  memory := 0
  forward := ⟨[⟨[.ofDefinition ⟨"lake", []⟩, .ofDefinition ⟨"hill", []⟩]⟩], ∅⟩
  dual := ∅
  trace := #[]

/-- The key goes to the landing that satisfies, and no hook runs. -/
theorem selectFrom_preferring_ferry : ∃ location next,
    selectFrom .forward 1 "world" (WorldItem.ofItem (.empty "key")) ferry = .ok location next ∧
      ferry.satisfies (WorldItem.ofItem (.empty "key")) location ∧ next.memory = 0 := by
  have satisfiable : ∃ location ∈ (ferry.side .forward).locations,
      ferry.satisfies (WorldItem.ofItem (.empty "key")) location := by decide
  exact (selectFrom_preferring ferry .forward 1 "world" (.ofItem (.empty "key"))).1 satisfiable

end Strategy

end Randomizer
