import Mathlib.Order.Compare
import Randomizer.Proofs.Binary32
import Randomizer.Proofs.Placement.Optimum
import Randomizer.Proofs.Placement.Stability

namespace Randomizer

instance : Std.TransCmp Binary32.compareTotal :=
  inferInstanceAs (Std.TransCmp (compareOn Binary32.rank))

instance {α : Type} [Participant α] : Std.TransCmp (Participant.order : α → α → Ordering) :=
  inferInstanceAs (Std.TransCmp (compareLex
    (compareOn fun participant : α => (Participant.priority participant).rank)
    (compareOn Participant.name)))

namespace Side

variable {μ : Type} [Participant μ] {side : Side μ}

/-- Every pool is in order. -/
def Ordered (side : Side μ) : Prop := ∀ pool ∈ side.pools, pool.Ascending

theorem ordered_empty : (∅ : Side μ).Ordered := nofun

/-- A side without one of its locations stays in order. -/
theorem Ordered.remove (ordered : side.Ordered) (pool index : Nat) :
    (side.remove pool index).Ordered := by
  intro other member
  obtain ⟨position, found⟩ := List.mem_iff_getElem?.1 member
  rw [Side.remove, List.getElem?_modify] at found
  obtain ⟨source, foundSource, same⟩ := Option.map_eq_some_iff.1 found
  have ascending := ordered source (List.mem_of_getElem? foundSource)
  subst same
  split
  · exact ascending.eraseIndex index
  · exact ascending

/-- A completed sphere comes in as a pool in order. -/
theorem Ordered.complete (ordered : side.Ordered) (mean : Option Binary32) (locations : List μ) :
    (side.complete mean locations).Ordered := by
  refine List.forall_mem_append.2 ⟨ordered, List.forall_mem_singleton.2 ?_⟩
  exact SortedList.ascending_ofList locations

end Side

namespace Strategy

variable {σ ι μ : Type} [Participant μ]

/-- Every pool of either side is in order. -/
structure Ordered (strategy : Strategy σ ι μ) : Prop where
  forward : strategy.forward.Ordered
  dual : strategy.dual.Ordered

/-- A new strategy is in order. -/
theorem ordered_create (transform : Transform) (constraints : List (Constraint σ ι μ))
    (memory : σ) : (create transform constraints memory).Ordered :=
  ⟨Side.ordered_empty, Side.ordered_empty⟩

/-- A strategy is in order once it is reset. -/
theorem ordered_reset (strategy : Strategy σ ι μ) : strategy.reset.Ordered :=
  ⟨Side.ordered_empty, Side.ordered_empty⟩

namespace Ordered

variable {strategy : Strategy σ ι μ} (ordered : strategy.Ordered) (direction : Direction)
include ordered

/-- Each side of a strategy in order is in order. -/
theorem side : (strategy.side direction).Ordered := by
  cases direction with
  | forward => exact ordered.forward
  | dual => exact ordered.dual

/-- A strategy stays in order with another side in order. -/
theorem setSide {side : Side μ} (orderedSide : side.Ordered) :
    (strategy.setSide direction side).Ordered := by
  cases direction with
  | forward => exact ⟨orderedSide, ordered.dual⟩
  | dual => exact ⟨ordered.forward, orderedSide⟩

end Ordered

/-- Whatever a run does to a side, the pools stay in order. -/
theorem Stable.ordered (direction : Direction) :
    Stable direction (Ordered : Strategy σ ι μ → Prop) where
  history := fun _ _ _ ordered => ⟨ordered.forward, ordered.dual⟩
  remove := fun _ pool index ordered =>
    ordered.setSide direction ((ordered.side direction).remove pool index)
  complete := fun _ mean locations ordered =>
    ordered.setSide direction ((ordered.side direction).complete mean locations)

/-- Spheres placed one after another keep the pools in order, also up to a failure. -/
theorem keeps_ordered_spheres [Participant ι] (spheres : List (Sphere ι μ)) :
    EStateM.Keeps (spheres.mapM place : EStateM Error (Strategy σ ι μ) (List (List _)))
      Ordered := by
  refine EStateM.keeps_mapM (fun sphere => ?_) spheres
  exact keeps_placeSphere (Stable.ordered .forward) sphere

/-- Calls for groups keep the pools in order, also up to a failure. -/
theorem keeps_ordered_groups {κ : Type} [Participant κ]
    (calls : List (Sphere κ κ × Option (Sphere κ κ))) :
    EStateM.Keeps (calls.mapM fun call => placeCoupled call.1 call.2 :
      EStateM Error (Strategy σ κ κ) (List (List _))) Ordered := by
  refine EStateM.keeps_mapM (fun call => ?_) calls
  exact keeps_placeCoupled (Stable.ordered .forward) (Stable.ordered .dual) call.1 call.2

section Transforms

variable {strategy : Strategy σ ι μ} {depth priorityDepth : Nat} {pool : Pool μ}
  (ascending : pool.Ascending)
  (numbers : ∀ location ∈ pool.items,
    (strategy.adjusted depth priorityDepth location).isNaN = false)
include ascending numbers

/-- A transform that is monotone on the locations of a pool keeps the pool's order. -/
theorem ascends_of_mono (mono : ∀ first ∈ pool.items, ∀ second ∈ pool.items,
      (Participant.priority first).signed ≤ (Participant.priority second).signed →
        (strategy.adjusted depth priorityDepth first).signed ≤
          (strategy.adjusted depth priorityDepth second).signed) :
    strategy.Ascends depth priorityDepth pool.items := by
  refine ⟨numbers, List.Pairwise.imp_of_mem ?_ ascending⟩
  intro first second memberFirst memberSecond notAbove
  have priorities : Binary32.compareTotal (Participant.priority first)
      (Participant.priority second) ≠ .gt := by
    intro above
    rw [Participant.order, above] at notAbove
    exact notAbove rfl
  have below := mono first memberFirst second memberSecond
    (Binary32.signed_le_of_compareTotal priorities)
  simp [Binary32.atMost, numbers first memberFirst, numbers second memberSecond, below]

/-- The identity keeps the order of every pool. -/
theorem ascends_of_identity (identity : strategy.transform = Transform.identity) :
    strategy.Ascends depth priorityDepth pool.items := by
  apply ascends_of_mono ascending numbers
  intro first _ second _ below
  rw [adjusted, adjusted, identity]
  exact below

/-- At one depth the scaled transform adds the same to all priorities. -/
theorem ascends_of_scaled {factor : Binary32} {sphere : Nat}
    (scaled : strategy.transform = Transform.scaled factor)
    (level : ∀ location ∈ pool.items, Participant.sphere location = sphere) :
    strategy.Ascends depth priorityDepth pool.items := by
  apply ascends_of_mono ascending numbers
  intro first memberFirst second memberSecond below
  have number := numbers first memberFirst
  have secondNumber := numbers second memberSecond
  unfold adjusted at number secondNumber ⊢
  rw [scaled, Transform.scaled, level first memberFirst] at number
  rw [scaled, Transform.scaled, level second memberSecond] at secondNumber
  rw [scaled, Transform.scaled, Transform.scaled, level first memberFirst,
    level second memberSecond]
  split at number
  · next shallow =>
    rw [if_pos shallow] at secondNumber ⊢
    rw [if_pos shallow]
    exact Binary32.signed_add_mono below number secondNumber
  · next deep =>
    rw [if_neg deep, if_neg deep]
    exact below

end Transforms

end Strategy

end Randomizer
