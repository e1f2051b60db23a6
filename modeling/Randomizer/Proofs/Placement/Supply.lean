import Randomizer.Proofs.Placement.Ledger
import Randomizer.Proofs.Placement.Memory
import Randomizer.Proofs.Placement.Order

namespace Randomizer

namespace Participant

variable {α : Type} [Participant α]

/-- Two participants tie if they have both the priority and the name in common. -/
theorem order_eq_iff {first second : α} :
    order first second = .eq ↔ priority first = priority second ∧ name first = name second := by
  rw [order, Ordering.then_eq_eq, Binary32.compareTotal_eq_iff, compare_eq_iff_eq]

/-- No two of them have both the priority, bit for bit, and the name in common. -/
def Apart (participants : List α) : Prop :=
  participants.Pairwise fun first second =>
    priority first ≠ priority second ∨ name first ≠ name second

/-- Locations without ties are sorted alike in any order. -/
theorem Apart.ofList_eq {participants others : List α} (apart : Apart participants)
    (perm : participants.Perm others) :
    (SortedList.ofList participants : SortedList α order) = SortedList.ofList others := by
  refine SortedList.ofList_eq_of_perm perm (apart.imp fun different same => ?_)
  rw [order_eq_iff] at same
  exact different.elim (· same.1) (· same.2)

end Participant

namespace Call

variable {σ ι μ : Type} [Participant ι] [Participant μ]

/-- The placements of a call, or its error. -/
def answer (strategy : Strategy σ ι μ) : Call ι μ → Except Error (List (Placement ι μ))
  | place sphere => EStateM.answer (Strategy.place sphere strategy)
  | select depth group item =>
    (EStateM.answer (Strategy.select depth group item strategy)).map fun location =>
      [⟨item, location⟩]

/-- The same call, but for the order in which its sphere lists the locations. -/
inductive Resupplied : Call ι μ → Call ι μ → Prop where
  | place {sphere : Sphere ι μ} {locations : List μ} : sphere.locations.Perm locations →
      Participant.Apart sphere.locations →
      Resupplied (place sphere) (place { sphere with locations })
  | select (depth : Nat) (group : String) (item : ι) :
      Resupplied (select depth group item) (select depth group item)

end Call

namespace Strategy

variable {σ ι μ : Type} [Participant ι] [Participant μ]

/-- A sphere is used through its pool alone, which is the same in any order of supply. -/
theorem placeSphere_eq_of_perm (direction : Direction) {sphere : Sphere ι μ} {locations : List μ}
    (perm : sphere.locations.Perm locations) (apart : Participant.Apart sphere.locations) :
    (placeSphere direction { sphere with locations } :
      EStateM Error (Strategy σ ι μ) (List (Placement ι μ))) = placeSphere direction sphere := by
  unfold placeSphere Side.complete
  rw [apart.ofList_eq perm]

end Strategy

namespace Call

variable {σ ι μ : Type} [Participant ι] [Participant μ] {call other : Call ι μ}

/-- A call does the same to a strategy in any order of supply. -/
theorem Resupplied.same (resupplied : Resupplied call other) (strategy : Strategy σ ι μ) :
    other.answer strategy = call.answer strategy ∧
      other.leaves strategy = call.leaves strategy := by
  cases resupplied with
  | place perm apart =>
      rw [answer, answer, leaves, leaves, Strategy.place, Strategy.place,
        Strategy.placeSphere_eq_of_perm .forward perm apart]
      exact ⟨rfl, rfl⟩
  | select depth group item => exact ⟨rfl, rfl⟩

/-- A call does the same to twins. -/
theorem same_of_twins {transform : Transform} {constraints : List (Constraint σ ι μ)}
    {first second : Strategy σ ι μ} (pure : ∀ constraint ∈ constraints, constraint.Pure)
    (twins : first.Twins transform constraints second) (call : Call ι μ) :
    call.answer second = call.answer first ∧
      (call.leaves first).Twins transform constraints (call.leaves second) := by
  cases call with
  | place sphere =>
      have agree := Strategy.agree_placeSphere pure twins .forward sphere
      exact ⟨agree.answer_eq.symm, agree.ending⟩
  | select depth group item =>
      have agree := Strategy.agree_selectFrom pure twins .forward depth group item
      exact ⟨congrArg (Except.map _) agree.answer_eq.symm, agree.ending⟩

end Call

namespace Strategy

variable {σ ι μ : Type} [Participant ι] [Participant μ]

/-- The answers of a run of calls, one for each. -/
def answers (strategy : Strategy σ ι μ) :
    List (Randomizer.Call ι μ) → List (Except Error (List (Placement ι μ)))
  | [] => []
  | call :: rest => call.answer strategy :: answers (call.leaves strategy) rest

variable {calls others : List (Randomizer.Call ι μ)}

/-- Calls that differ in the order of supply have the same answers and end alike. -/
theorem same_of_resupplied (strategy : Strategy σ ι μ)
    (resupplied : List.Forall₂ Randomizer.Call.Resupplied calls others) :
    strategy.answers others = strategy.answers calls ∧
      strategy.after others = strategy.after calls := by
  induction resupplied generalizing strategy with
  | nil => exact ⟨rfl, rfl⟩
  | @cons call other rest otherRest first _ ih =>
      obtain ⟨sameAnswer, sameNext⟩ := first.same strategy
      obtain ⟨sameAnswers, sameEnd⟩ := ih (call.leaves strategy)
      rw [answers, answers, sameAnswer, sameNext, sameAnswers]
      refine ⟨rfl, ?_⟩
      change (other.leaves strategy).after otherRest = (call.leaves strategy).after rest
      rw [sameNext, sameEnd]

/-- Twins give the same answers over a run, and are twins at its end. -/
theorem Twins.same_run {transform : Transform} {constraints : List (Constraint σ ι μ)}
    {first second : Strategy σ ι μ} (pure : ∀ constraint ∈ constraints, constraint.Pure)
    (twins : first.Twins transform constraints second) (calls : List (Randomizer.Call ι μ)) :
    second.answers calls = first.answers calls ∧
      (first.after calls).Twins transform constraints (second.after calls) := by
  induction calls generalizing first second with
  | nil => exact ⟨rfl, twins⟩
  | cons call rest ih =>
      obtain ⟨sameAnswer, kept⟩ := call.same_of_twins pure twins
      obtain ⟨sameAnswers, keptEnd⟩ := ih kept
      rw [answers, answers, sameAnswer, sameAnswers]
      exact ⟨rfl, keptEnd⟩

/-- The order in which spheres list their locations has no part in any answer of a run, in what it
leaves of the pools, or in anything else about the strategy. With pure hooks this is also so for a
strategy whose hooks remember something else. -/
theorem answers_resupplied (strategy : Strategy σ ι μ)
    (resupplied : List.Forall₂ Randomizer.Call.Resupplied calls others) :
    strategy.answers others = strategy.answers calls ∧
      strategy.after others = strategy.after calls ∧
      ∀ transform constraints twin, (∀ constraint ∈ constraints, constraint.Pure) →
        strategy.Twins transform constraints twin →
          twin.answers others = strategy.answers calls ∧
            (twin.after others).forward = (strategy.after calls).forward ∧
            (twin.after others).dual = (strategy.after calls).dual := by
  obtain ⟨sameAnswers, sameEnd⟩ := strategy.same_of_resupplied resupplied
  refine ⟨sameAnswers, sameEnd, fun transform constraints twin pure twins => ?_⟩
  obtain ⟨twinAnswers, kept⟩ := twins.same_run pure others
  rw [sameEnd] at kept
  exact ⟨twinAnswers.trans sameAnswers, kept.forward.symm, kept.dual.symm⟩

/-- A hook that counts how often it is asked about the quay. -/
def tallied (asked : Nat) : Strategy Nat WorldItem WorldLocation :=
  create .reversed [⟨some "dry", fun _ location => location.name != "quay",
    some fun _ _ => modify (· + 1)⟩] asked

/-- Two locations of one priority, listed in either order, then an item that goes to the mole, and
then one item too many. -/
def harbor (locations : List WorldLocation) : List (Randomizer.Call WorldItem WorldLocation) := [
  .place ⟨0, "world", [], locations, false⟩,
  .select 1 "world" (.ofItem (.empty "key")),
  .place ⟨1, "world", [.ofItem (.empty "lamp"), .ofItem (.empty "rope")], [], false⟩]

/-- The harbor's calls have the same answers for either list, with the key on the mole. -/
theorem answers_resupplied_harbor :
    (tallied 5).answers (harbor [.ofDefinition ⟨"quay", []⟩, .ofDefinition ⟨"mole", []⟩]) =
        (tallied 0).answers (harbor [.ofDefinition ⟨"mole", []⟩, .ofDefinition ⟨"quay", []⟩]) ∧
      (tallied 5).answers (harbor [.ofDefinition ⟨"quay", []⟩, .ofDefinition ⟨"mole", []⟩]) = [
        .ok [],
        .ok [⟨.ofItem (.empty "key"), .ofDefinition ⟨"mole", []⟩⟩],
        .error (.exhausted "world" "rope")] := by
  have apart : Participant.Apart
      ([.ofDefinition ⟨"mole", []⟩, .ofDefinition ⟨"quay", []⟩] : List WorldLocation) :=
    List.pairwise_pair.2 (.inr (by decide))
  have resupplied : List.Forall₂ Randomizer.Call.Resupplied
      (harbor [.ofDefinition ⟨"mole", []⟩, .ofDefinition ⟨"quay", []⟩])
      (harbor [.ofDefinition ⟨"quay", []⟩, .ofDefinition ⟨"mole", []⟩]) :=
    .cons (.place (.swap _ _ _) apart) <| .cons (.select _ _ _) <|
      .cons (.place (.refl _) .nil) .nil
  have pure : ∀ constraint ∈ (tallied 0).constraints, constraint.Pure :=
    List.forall_mem_singleton.2 fun _ _ _ _ => rfl
  have twins : (tallied 0).Twins .reversed (tallied 0).constraints (tallied 5) :=
    ⟨⟨rfl, rfl⟩, ⟨rfl, rfl⟩, rfl, rfl⟩
  exact ⟨((answers_resupplied (tallied 0) resupplied).2.2 _ _ _ pure twins).1, by cbv⟩

end Strategy

end Randomizer
