import Randomizer.Placement.Rule
import Randomizer.Proofs.Placement.Stability

/-!
Hooks that do not go by what they remember. Whether such a hook accepts is told by the item and the
location alone, though it may note down that it was asked. Strategies that differ only in what their
hooks remember then give the same answers, and still do so after a failure.
-/

namespace Randomizer

namespace Constraint

variable {σ ι μ : Type}

/-- The hook answers the same whatever it remembers. -/
def Pure (constraint : Constraint σ ι μ) : Prop :=
  ∀ item location first second,
    EStateM.answer (constraint.onViolated item location first) =
      EStateM.answer (constraint.onViolated item location second)

/-- Pure hooks reject the same choices of a location, with the same error. -/
theorem agree_reject {constraints : List (Constraint σ ι μ)}
    (pure : ∀ constraint ∈ constraints, constraint.Pure) (item : ι) (location : μ)
    (first second : σ) :
    EStateM.Agree (fun _ _ => True) (reject constraints item location first)
      (reject constraints item location second) := by
  refine EStateM.agree_forM (fun constraint member start begin _ => ?_) trivial
  have among := (List.mem_filter.1 member).1
  exact EStateM.agree_of_answer_eq (pure constraint among item location start begin)

end Constraint

/-- A rule without a turning point, which responds to its last run as to its first. -/
theorem Rule.pure_toConstraint {ι μ : Type} [Participant ι] [Participant μ] {rule : Rule}
    (constant : ∀ plan, rule.plan = some plan → plan.first = plan.next) (number : Nat) :
    (rule.toConstraint number : Constraint HookMemory ι μ).Pure := by
  intro item location first second
  cases planned : rule.plan with
  | none => simp only [Constraint.onViolated, toConstraint, planned]; rfl
  | some plan =>
      have same := constant plan planned
      simp only [Constraint.onViolated, toConstraint, planned, Option.map_some, hook, same,
        ite_self]
      cases respond (rule.label.getD "") (Participant.name item) (Participant.name location)
        plan.next <;> rfl

/-- Rules without a turning point give pure constraints. -/
theorem Rule.pure_toConstraints {ι μ : Type} [Participant ι] [Participant μ] {rules : List Rule}
    (constant : ∀ rule ∈ rules, ∀ plan, rule.plan = some plan → plan.first = plan.next) :
    ∀ constraint ∈ (toConstraints rules : List (Constraint HookMemory ι μ)), constraint.Pure := by
  intro constraint member
  obtain ⟨⟨rule, number⟩, numbered, rfl⟩ := List.mem_map.1 member
  have among : rule ∈ rules := List.fst_mem_of_mem_zipIdx numbered
  exact pure_toConstraint (constant rule among) number

namespace Strategy

variable {σ ι μ : Type} [Participant μ]

/-- A transform and constraints that a strategy was created with. -/
structure Equipped (transform : Transform) (constraints : List (Constraint σ ι μ))
    (strategy : Strategy σ ι μ) : Prop where
  transform : strategy.transform = transform
  constraints : strategy.constraints = constraints

/-- Two strategies that are equipped alike, with the same free locations and the same history of
spheres, whatever their hooks remember. -/
structure Twins (transform : Transform) (constraints : List (Constraint σ ι μ))
    (first second : Strategy σ ι μ) : Prop where
  equippedFirst : first.Equipped transform constraints
  equippedSecond : second.Equipped transform constraints
  forward : first.forward = second.forward
  dual : first.dual = second.dual

variable {transform : Transform} {constraints : List (Constraint σ ι μ)}
  {first second : Strategy σ ι μ}

/-- Twins have the same sides. -/
theorem Twins.side (twins : Twins transform constraints first second) (direction : Direction) :
    first.side direction = second.side direction := by
  cases direction with
  | forward => exact twins.forward
  | dual => exact twins.dual

/-- Twins stay so when a side of both is set alike. -/
theorem Twins.setSide (twins : Twins transform constraints first second) (direction : Direction)
    (side : Side μ) :
    Twins transform constraints (first.setSide direction side) (second.setSide direction side) := by
  have equippedFirst := twins.equippedFirst
  have equippedSecond := twins.equippedSecond
  cases direction with
  | forward =>
      exact ⟨⟨equippedFirst.transform, equippedFirst.constraints⟩,
        ⟨equippedSecond.transform, equippedSecond.constraints⟩, rfl, twins.dual⟩
  | dual =>
      exact ⟨⟨equippedFirst.transform, equippedFirst.constraints⟩,
        ⟨equippedSecond.transform, equippedSecond.constraints⟩, twins.forward, rfl⟩

/-- Twins stay so when a sphere of both is completed alike. -/
theorem Twins.complete (twins : Twins transform constraints first second) (direction : Direction)
    (mean : Option Binary32) (locations : List μ) :
    Twins transform constraints
      (first.setSide direction ((first.side direction).complete mean locations))
      (second.setSide direction ((second.side direction).complete mean locations)) := by
  rw [twins.side]
  exact twins.setSide direction _

/-- A strategy that was dropped in the middle of its work is, once it is reset, the twin of a new
one. -/
theorem Equipped.reset {strategy : Strategy σ ι μ}
    (equipped : strategy.Equipped transform constraints) (memory : σ) :
    Twins transform constraints strategy.reset (create transform constraints memory) :=
  ⟨⟨equipped.transform, equipped.constraints⟩, ⟨rfl, rfl⟩, rfl, rfl⟩

/-- A new strategy is its own twin. -/
theorem twins_create (transform : Transform) (constraints : List (Constraint σ ι μ))
    (memory : σ) :
    Twins transform constraints (create transform constraints memory)
      (create transform constraints memory) :=
  ⟨⟨rfl, rfl⟩, ⟨rfl, rfl⟩, rfl, rfl⟩

/-- What hooks and transforms note down has no part in it. -/
theorem Twins.note (twins : Twins transform constraints first second) (firstMemory secondMemory : σ)
    (firstTrace secondTrace : Array Adjustment) :
    Twins transform constraints { first with memory := firstMemory, trace := firstTrace }
      { second with memory := secondMemory, trace := secondTrace } :=
  ⟨⟨twins.equippedFirst.transform, twins.equippedFirst.constraints⟩,
    ⟨twins.equippedSecond.transform, twins.equippedSecond.constraints⟩, twins.forward, twins.dual⟩

section Scan

variable (sameTransform : first.transform = second.transform)
  (sameConstraints : first.constraints = second.constraints)
include sameTransform sameConstraints

/-- A scan of a pool looks at the transform and the constraints alone. -/
theorem scanPool_congr (item : ι) (depth priorityDepth pool index : Nat) (list : List μ)
    (scan : Scan μ) :
    first.scanPool item depth priorityDepth pool index list scan =
      second.scanPool item depth priorityDepth pool index list scan := by
  induction list generalizing index scan with
  | nil => rfl
  | cons location rest ih =>
      have sameTests : first.satisfies item location = second.satisfies item location := by
        rw [satisfies, satisfies, sameConstraints]
      rw [scanPool, scanPool, sameTransform, sameTests]
      simp only [ih]

/-- A scan of pools looks at the transform and the constraints alone. -/
theorem scanPools_congr (item : ι) (depth priorityDepth position : Nat) (pools : List (Pool μ))
    (scan : Scan μ) :
    first.scanPools item depth priorityDepth position pools scan =
      second.scanPools item depth priorityDepth position pools scan := by
  induction pools generalizing position scan with
  | nil => rfl
  | cons pool rest ih =>
      rw [scanPools, scanPools, scanPool_congr sameTransform sameConstraints, ih]

/-- A scan looks at the transform, the constraints and one side. -/
theorem scan_congr [Participant ι] {direction : Direction}
    (sameSide : first.side direction = second.side direction) (depth : Nat) (item : ι) :
    first.scan direction depth item = second.scan direction depth item := by
  simp only [scan, sameSide, scanPools_congr sameTransform sameConstraints]

end Scan

/-- Twins scan alike. -/
theorem Twins.scan [Participant ι] (twins : Twins transform constraints first second)
    (direction : Direction) (depth : Nat) (item : ι) :
    first.scan direction depth item = second.scan direction depth item :=
  scan_congr (twins.equippedFirst.transform.trans twins.equippedSecond.transform.symm)
    (twins.equippedFirst.constraints.trans twins.equippedSecond.constraints.symm)
    (twins.side direction) depth item

variable [Participant ι] (pure : ∀ constraint ∈ constraints, constraint.Pure)
include pure

/-- Twins select alike, and are twins again after it. -/
theorem agree_selectFrom (twins : Twins transform constraints first second) (direction : Direction)
    (depth : Nat) (group : String) (item : ι) :
    EStateM.Agree (Twins transform constraints) (selectFrom direction depth group item first)
      (selectFrom direction depth group item second) := by
  simp only [selectFrom, twins.scan]
  cases (second.scan direction depth item).best with
  | none => exact .error (twins.note _ _ _ _)
  | some best =>
      have rejected : EStateM.Agree (fun _ _ => True)
          (Constraint.reject first.constraints item best.location first.memory)
          (Constraint.reject second.constraints item best.location second.memory) := by
        rw [twins.equippedFirst.constraints, twins.equippedSecond.constraints]
        exact Constraint.agree_reject pure item best.location first.memory second.memory
      dsimp only
      generalize Constraint.reject first.constraints item best.location first.memory = answer
        at rejected ⊢
      generalize Constraint.reject second.constraints item best.location second.memory = other
        at rejected ⊢
      cases rejected with
      | error => exact .error (twins.note _ _ _ _)
      | ok =>
          rw [twins.side]
          exact .ok ((twins.note _ _ _ _).setSide direction _)

/-- Twins select alike for several items, and are twins again after it. -/
theorem agree_selectAll (twins : Twins transform constraints first second) (direction : Direction)
    (depth : Nat) (group : String) (items : List ι) :
    EStateM.Agree (Twins transform constraints) (selectAll direction depth group items first)
      (selectAll direction depth group items second) := by
  refine EStateM.agree_mapM (fun item start begin related => ?_) items twins
  have selected := agree_selectFrom pure related direction depth group item
  exact selected.bind fun location next later kept => .ok kept

/-- Twins place a sphere alike, and are twins again after it. -/
theorem agree_placeSphere (twins : Twins transform constraints first second)
    (direction : Direction) (sphere : Sphere ι μ) :
    EStateM.Agree (Twins transform constraints) (placeSphere direction sphere first)
      (placeSphere direction sphere second) := by
  have items := agree_selectAll pure twins direction sphere.depth sphere.group sphere.items
  refine items.bind fun placements middle otherMiddle kept => ?_
  exact .ok (kept.complete direction _ _)

end Strategy

end Randomizer
