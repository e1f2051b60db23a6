import Randomizer.Placement.Coupled
import Randomizer.Proofs.Placement.Selection

/-!
What a run of placement keeps. Spheres and reconciliations change a strategy only in a few ways:
they note down what hooks and transforms did, take a location out of a pool and complete a side. A
property that all of these keep holds on after every run, also after one that fails.
-/

namespace Randomizer

/-- The side that work in a direction leaves alone. -/
def Direction.other : Direction → Direction
  | .forward => .dual
  | .dual => .forward

namespace Strategy

section Spheres

variable {σ ι μ : Type} [Participant μ]

/-- The strategy with other pools on a side. -/
def withPools (strategy : Strategy σ ι μ) (direction : Direction) (pools : List (Pool μ)) :
    Strategy σ ι μ :=
  strategy.setSide direction { strategy.side direction with pools }

/-- A property that every change of the side in a direction keeps. -/
structure Stable (direction : Direction) (keep : Strategy σ ι μ → Prop) : Prop where
  history : ∀ strategy memory trace, keep strategy → keep { strategy with memory, trace }
  remove : ∀ strategy pool index, keep strategy →
    keep (strategy.setSide direction ((strategy.side direction).remove pool index))
  complete : ∀ strategy mean locations, keep strategy →
    keep (strategy.setSide direction ((strategy.side direction).complete mean locations))

namespace Stable

/-- A property that the side has no part in. -/
theorem of_setSide {direction : Direction} {keep : Strategy σ ι μ → Prop}
    (history : ∀ strategy memory trace, keep strategy → keep { strategy with memory, trace })
    (setSide : ∀ strategy side, keep strategy → keep (strategy.setSide direction side)) :
    Stable direction keep where
  history := history
  remove := fun strategy _ _ => setSide strategy _
  complete := fun strategy _ _ => setSide strategy _

/-- What removals keep, taking out the lowest location keeps. -/
theorem takeLowest {direction : Direction} {keep : Strategy σ ι μ → Prop}
    (stable : Stable direction keep) {strategy : Strategy σ ι μ} {lowest : μ}
    {pools : List (Pool μ)}
    (taken : Side.takeLowest? (strategy.side direction).pools = some (lowest, pools))
    (kept : keep strategy) : keep (strategy.withPools direction pools) := by
  obtain ⟨position, _, _, _, rfl⟩ := Side.takeLowest?_eq_some taken
  exact stable.remove strategy position 0 kept

/-- The constraints stay as they are. -/
theorem constraints (direction : Direction) (constraints : List (Constraint σ ι μ)) :
    Stable direction fun strategy => strategy.constraints = constraints := by
  apply of_setSide
  · intro strategy memory trace kept
    exact kept
  · intro strategy side kept
    cases direction <;> exact kept

/-- The transform stays as it is. -/
theorem transform (direction : Direction) (transform : Transform) :
    Stable direction fun strategy : Strategy σ ι μ => strategy.transform = transform := by
  apply of_setSide
  · intro strategy memory trace kept
    exact kept
  · intro strategy side kept
    cases direction <;> exact kept

/-- The other side stays as it is. -/
theorem other (direction : Direction) (side : Side μ) :
    Stable direction fun strategy : Strategy σ ι μ =>
      strategy.side direction.other = side := by
  apply of_setSide
  · intro strategy memory trace kept
    cases direction <;> exact kept
  · intro strategy ownSide kept
    cases direction <;> exact kept

end Stable

variable [Participant ι] {direction : Direction} {keep : Strategy σ ι μ → Prop}

/-- A selection keeps what every change of its side keeps. -/
theorem keeps_selectFrom (stable : Stable direction keep) (depth : Nat) (group : String)
    (item : ι) : EStateM.Keeps (selectFrom direction depth group item) keep := by
  intro strategy kept
  have noted (memory : σ) (trace : Array Adjustment) : keep { strategy with memory, trace } :=
    stable.history strategy memory trace kept
  unfold EStateM.ending
  simp only [selectFrom]
  cases (strategy.scan direction depth item).best with
  | none => exact noted _ _
  | some best =>
      dsimp only
      cases Constraint.reject strategy.constraints item best.location strategy.memory with
      | error error memory => exact noted _ _
      | ok _ memory =>
          have removed := stable.remove _ best.pool best.index
            (noted memory (strategy.trace ++ (strategy.scan direction depth item).trace))
          cases direction <;> exact removed

/-- A sphere keeps what every change of its side keeps. -/
theorem keeps_placeSphere (stable : Stable direction keep) (sphere : Sphere ι μ) :
    EStateM.Keeps (placeSphere direction sphere) keep := by
  refine (keeps_selectAll (keeps_selectFrom stable _ _) sphere.items).bind fun placements => ?_
  refine EStateM.Keeps.bind (EStateM.keeps_modify fun strategy kept => ?_) fun _ =>
    EStateM.keeps_pure _
  exact stable.complete strategy _ _ kept

end Spheres

section Coupled

variable {σ κ : Type} [Participant κ] {direction : Direction} {keep : Strategy σ κ κ → Prop}

/-- Pairing off takes items from the side in a direction and locations from the forward side. -/
theorem keeps_pairOff (items : Stable direction keep) (forward : Stable .forward keep) (depth : Nat)
    (group : String) (rounds : Nat) :
    EStateM.Keeps (pairOff direction depth group rounds) keep := by
  induction rounds with
  | zero => exact EStateM.keeps_pure []
  | succ rounds ih =>
      intro strategy kept
      rw [pairOff, EStateM.ending_get_bind]
      dsimp only
      cases lowest : Side.takeLowest? (strategy.side direction).pools with
      | none => exact kept
      | some taken =>
          obtain ⟨item, pools⟩ := taken
          dsimp only
          rw [EStateM.ending_set_bind]
          refine (keeps_selectFrom forward depth group item).bind (fun location => ?_) _
            (items.takeLowest lowest kept)
          exact ih.bind fun others => EStateM.keeps_pure _

/-- A reconciliation keeps what every change of either side keeps. -/
theorem keeps_reconcile (forward : Stable .forward keep) (dual : Stable .dual keep)
    (hasDual : Bool) (depth : Nat) (group : String) :
    EStateM.Keeps (reconcile hasDual depth group) keep := by
  have items : Stable (leftoverSide hasDual) keep := by
    cases hasDual
    · exact forward
    · exact dual
  refine EStateM.keeps_get_bind fun strategy => ?_
  split
  · exact EStateM.keeps_throw_bind _ _
  · refine (keeps_pairOff items forward _ _ _).bind fun placements => ?_
    refine EStateM.keeps_get_bind fun later => ?_
    dsimp only
    split
    · exact EStateM.keeps_throw_bind _ _
    · exact EStateM.keeps_pure placements

/-- What both sides keep, a call for a group keeps. -/
theorem keeps_placeCoupled (forward : Stable .forward keep) (dual : Stable .dual keep)
    (sphere : Sphere κ κ) (dualSphere : Option (Sphere κ κ)) :
    EStateM.Keeps (placeCoupled sphere dualSphere) keep := by
  refine (keeps_placeSphere forward sphere).bind fun placements => ?_
  have reconciled (placed : List (Placement κ κ)) : EStateM.Keeps (do
      let leftover ←
        if sphere.isFinal then reconcile dualSphere.isSome sphere.depth sphere.group else pure []
      return placed ++ leftover) keep := by
    split
    · exact (keeps_reconcile forward dual _ _ _).bind fun leftover => EStateM.keeps_pure _
    · exact (EStateM.keeps_pure _).bind fun leftover => EStateM.keeps_pure _
  cases dualSphere with
  | none => exact (EStateM.keeps_pure []).bind fun dual => reconciled _
  | some dualSphere =>
      exact (keeps_placeSphere dual dualSphere).bind fun dual => reconciled _

end Coupled

end Strategy

end Randomizer
