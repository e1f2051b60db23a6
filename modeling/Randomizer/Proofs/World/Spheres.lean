import Randomizer.Proofs.World.Chronicle

namespace Randomizer

/-- Spheres of consecutive depths, each with items and locations of its own depth. -/
def Layered : Nat → List (Sphere WorldItem WorldLocation) → Prop
  | _, [] => True
  | depth, sphere :: rest =>
    (∀ item ∈ sphere.items, item.sphere = depth) ∧
      (∀ location ∈ sphere.locations, location.sphere = depth) ∧ Layered (depth + 1) rest

/-- Spheres that all have items have some of each of their depths and of no other. -/
theorem Layered.exists_sphere_iff {depth number : Nat}
    {spheres : List (Sphere WorldItem WorldLocation)} (layered : Layered depth spheres)
    (filled : ∀ sphere ∈ spheres, sphere.items ≠ []) :
    (∃ item ∈ spheres.flatMap Sphere.items, item.sphere = number) ↔
      depth ≤ number ∧ number < depth + spheres.length := by
  induction spheres generalizing depth with
  | nil => simp
  | cons sphere rest ih =>
      obtain ⟨sameItems, _, deeper⟩ := layered
      have later := ih deeper fun other member => filled other (List.mem_cons_of_mem _ member)
      have here : (∃ item ∈ sphere.items, item.sphere = number) ↔ depth = number := by
        constructor
        · rintro ⟨item, member, rfl⟩
          exact (sameItems item member).symm
        · rintro rfl
          obtain ⟨item, member⟩ := List.exists_mem_of_ne_nil _ (filled sphere List.mem_cons_self)
          exact ⟨item, member, sameItems item member⟩
      simp only [List.flatMap_cons, List.mem_append, or_and_right, exists_or]
      rw [here, later, List.length_cons]
      omega

namespace Frontier

/-- An advance opens the locations that are open once the waypoints are settled. -/
theorem advance_eq (manager : Manager) (depth : Nat) (frontier : Frontier) :
    frontier.advance manager depth =
      ((frontier.unreached.filter
          (·.isOpen manager.vars (manager.settle frontier.progression).read)).map
            fun location => { location with sphere := depth, reachable := .permanent },
        ⟨frontier.unreached.filter
            (!·.isOpen manager.vars (manager.settle frontier.progression).read),
          manager.settle frontier.progression⟩) := by
  simp only [advance, List.partition_eq_filter_filter]
  rfl

end Frontier

namespace Growth

variable {manager : Manager} {depth : Nat} {granted items rest : List WorldItem}
  {frontier final : Frontier} {next : WorldItem}

/-- One item of a growth: it is played, and its sphere ends when some location is open after it. -/
theorem grow_cons :
    grow manager depth granted frontier (next :: rest) =
      match manager.play next.item frontier.progression with
      | .error overflow => ⟨[], .error overflow⟩
      | .ok state =>
        let granted := granted ++ [{ next with sphere := depth, placed := .temporary }]
        let opened := frontier.unreached.filter (·.isOpen manager.vars state.read)
        let frontier := ⟨frontier.unreached.filter (!·.isOpen manager.vars state.read), state⟩
        if opened = [] then grow manager depth granted frontier rest
        else
          let locations := opened.map fun location =>
            { location with sphere := depth, reachable := .permanent }
          let growth := grow manager (depth + 1) [] frontier rest
          { growth with
            spheres :=
              ⟨depth, mainGroup, granted, locations, rest.isEmpty⟩ :: growth.spheres } := by
  rw [grow, Frontier.grant, Manager.play]
  cases next.item.grant manager.vars frontier.progression with
  | error overflow _ => rfl
  | ok _ state => simp only [Frontier.advance_eq, List.isEmpty_iff, List.map_eq_nil_iff]

/-- Growth goes on in consecutive spheres. -/
theorem layered_grow (manager : Manager) (depth : Nat) (granted : List WorldItem)
    (frontier : Frontier) (items : List WorldItem)
    (same : ∀ item ∈ granted, item.sphere = depth) :
    Layered depth (grow manager depth granted frontier items).spheres := by
  induction items generalizing depth granted frontier with
  | nil =>
      unfold grow
      split
      · exact trivial
      · exact ⟨same, fun location member => (List.not_mem_nil member).elim, trivial⟩
  | cons next rest ih =>
      have stillSame : ∀ item ∈ granted ++ [{ next with sphere := depth, placed := .temporary }],
          item.sphere = depth := by
        intro item member
        rcases List.mem_append.1 member with before | last
        · exact same item before
        · rw [List.mem_singleton.1 last]
      rw [grow_cons]
      split
      · exact trivial
      · simp only
        split
        · exact ih depth _ _ stillSame
        · refine ⟨stillSame, fun location member => ?_, ih (depth + 1) [] _ (by simp)⟩
          obtain ⟨source, _, rfl⟩ := List.mem_map.1 member
          rfl

/-- Every sphere that grants close has items. -/
theorem items_ne_nil_of_mem_grow (manager : Manager) (depth : Nat) (granted : List WorldItem)
    (frontier : Frontier) (items : List WorldItem) :
    ∀ sphere ∈ (grow manager depth granted frontier items).spheres, sphere.items ≠ [] := by
  induction items generalizing depth granted frontier with
  | nil =>
      unfold grow
      split
      · exact List.forall_mem_nil _
      next some =>
        rw [List.isEmpty_iff] at some
        exact List.forall_mem_singleton.2 some
  | cons next rest ih =>
      rw [grow_cons]
      split
      · exact List.forall_mem_nil _
      · simp only
        split
        · exact ih depth _ _
        · exact List.forall_mem_cons.2 ⟨by simp, ih (depth + 1) [] _⟩

/-- A growth that does not overflow has a chronicle. -/
theorem exists_unfolds (ends : (grow manager depth granted frontier items).ending = .ok final) :
    ∃ chronicle, frontier.Unfolds manager depth items chronicle ∧ chronicle.final = final ∧
      (grow manager depth granted frontier items).spheres.flatMap Sphere.items =
        granted ++ chronicle.items ∧
      (grow manager depth granted frontier items).spheres.flatMap Sphere.locations =
        chronicle.opened := by
  induction items generalizing depth granted frontier with
  | nil =>
      refine ⟨_, .done depth frontier, ?_⟩
      unfold grow at ends ⊢
      split at ends
      next none =>
        cases ends
        rw [if_pos none, List.isEmpty_iff.1 none]
        exact ⟨rfl, rfl, rfl⟩
      next some =>
        cases ends
        rw [if_neg some]
        exact ⟨rfl, by simp, rfl⟩
  | cons next rest ih =>
      rw [grow_cons] at ends ⊢
      cases played : manager.play next.item frontier.progression with
      | error overflow =>
          rw [played] at ends
          cases ends
      | ok state =>
          simp only [played] at ends ⊢
          split at ends
          next none =>
            obtain ⟨chronicle, later, ended, sameItems, sameLocations⟩ := ih ends
            have shut : Frontier.Shut manager ⟨frontier.unreached, state⟩ := by
              simpa [Frontier.Shut] using List.filter_eq_nil_iff.1 none
            have all : frontier.unreached.filter (!·.isOpen manager.vars state.read) =
                frontier.unreached :=
              List.filter_eq_self.2 fun location member => by simp [shut location member]
            rw [if_pos none, sameItems, sameLocations, List.append_assoc]
            rw [all] at later
            exact ⟨_, .quiet played shut later, ended, rfl, rfl⟩
          next some =>
            obtain ⟨chronicle, later, ended, sameItems, sameLocations⟩ := ih ends
            have opening : ∃ location ∈ frontier.unreached,
                location.isOpen manager.vars state.read := by
              obtain ⟨location, member⟩ := List.exists_mem_of_ne_nil _ some
              exact ⟨location, List.mem_filter.1 member⟩
            rw [if_neg some, List.flatMap_cons, List.flatMap_cons, sameItems, sameLocations]
            exact ⟨_, .opening played opening later, ended, by simp, rfl⟩

end Growth

end Randomizer
