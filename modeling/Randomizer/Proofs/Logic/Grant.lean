import Mathlib.Algebra.Ring.Int.Defs
import Randomizer.Logic.Item
import Randomizer.Proofs.Outcome
import Randomizer.Proofs.Progression

namespace Randomizer

/-- All that a list of effects adds to a term. -/
def amountOn (term : TermId) (effects : List TermAmount) : Int :=
  (effects.map fun effect => if effect.term = term then effect.amount else 0).sum

section AmountOn

variable {term : TermId} {effects first second : List TermAmount}

/-- The first effect counts if it is on the term. -/
theorem amountOn_cons (term : TermId) (effect : TermAmount) (rest : List TermAmount) :
    amountOn term (effect :: rest) =
      (if effect.term = term then effect.amount else 0) + amountOn term rest := by
  rw [amountOn, List.map_cons, List.sum_cons, amountOn]

/-- Effects one after another add up. -/
theorem amountOn_append (term : TermId) (first second : List TermAmount) :
    amountOn term (first ++ second) = amountOn term first + amountOn term second := by
  rw [amountOn, List.map_append, List.sum_append_int, amountOn, amountOn]

/-- The order of the effects does not matter to the sum. -/
theorem amountOn_perm (term : TermId) (same : first.Perm second) :
    amountOn term first = amountOn term second := by
  induction same with
  | nil => rfl
  | cons effect _ ih => rw [amountOn_cons, amountOn_cons, ih]
  | swap effect other rest =>
      simp only [amountOn_cons]
      omega
  | trans _ _ ihFirst ihSecond => exact ihFirst.trans ihSecond

/-- Effects that add to a term come to no less than nothing. -/
theorem amountOn_nonneg (adds : ∀ effect ∈ effects, effect.term = term → 0 ≤ effect.amount) :
    0 ≤ amountOn term effects := by
  induction effects with
  | nil => exact Int.le_refl 0
  | cons effect rest ih =>
      have later := ih fun other member => adds other (List.mem_cons_of_mem _ member)
      rw [amountOn_cons]
      split
      next same =>
        have here := adds effect List.mem_cons_self same
        omega
      · omega

/-- Effects that add nothing to a term come to no more than nothing. -/
theorem amountOn_nonpos (spares : ∀ effect ∈ effects, effect.term = term → effect.amount ≤ 0) :
    amountOn term effects ≤ 0 := by
  induction effects with
  | nil => exact Int.le_refl 0
  | cons effect rest ih =>
      have later := ih fun other member => spares other (List.mem_cons_of_mem _ member)
      rw [amountOn_cons]
      split
      next same =>
        have here := spares effect List.mem_cons_self same
        omega
      · omega

end AmountOn

namespace Item

/-- What a grant adds, in order. -/
def increments : Item → List TermAmount
  | single _ effect => [effect]
  | multi _ effects => effects
  | _ => []

/-- The term that a grant sets to one. -/
def setTerm? : Item → Option TermId
  | bool _ term => some term
  | _ => none

/-- An item of a kind that looks at no progression, and takes nothing away. -/
def Counts : Item → Prop
  | bool _ _ | empty _ => True
  | single _ effect => 0 ≤ effect.amount
  | multi _ effects => ∀ effect ∈ effects, 0 ≤ effect.amount
  | capped _ _ _ | branched _ _ _ _ => False

/-- An item that counts takes nothing away. -/
theorem Counts.nonneg {item : Item} (counts : item.Counts) {effect : TermAmount}
    (member : effect ∈ item.increments) : 0 ≤ effect.amount := by
  cases item with
  | single name only =>
      rw [List.mem_singleton.1 member]
      exact counts
  | multi name effects => exact counts effect member
  | _ => cases member

section ApplyAll

variable {effects : List TermAmount} {state next : Progression}

/-- Effects move a term by all that they have on it. -/
theorem read_applyAll (ran : applyAll effects state = .ok () next) (term : TermId) :
    next.read term = state.read term + amountOn term effects := by
  induction effects generalizing state with
  | nil =>
      cases ran
      exact (Int.add_zero _).symm
  | cons effect rest ih =>
      obtain ⟨middle, applied, later⟩ := EStateM.forM_cons_eq_ok_iff.1 ran
      obtain ⟨_, rfl⟩ := Progression.apply_eq_ok_iff.1 applied
      rw [ih later, Progression.read_set, amountOn_cons]
      by_cases same : effect.term = term
      · subst same
        simp only [if_true]
        omega
      · rw [if_neg (Ne.symm same), if_neg same, Int.zero_add]

/-- Effects that do not overflow keep progression in range. -/
theorem inRange_applyAll (inRange : state.InRange) (ran : applyAll effects state = .ok () next) :
    next.InRange := by
  induction effects generalizing state with
  | nil =>
      cases ran
      exact inRange
  | cons effect rest ih =>
      obtain ⟨middle, applied, later⟩ := EStateM.forM_cons_eq_ok_iff.1 ran
      obtain ⟨stored, rfl⟩ := Progression.apply_eq_ok_iff.1 applied
      exact ih (inRange.set effect.term stored) later

/-- Amounts that are not negative can be added when there is room for their sum. -/
theorem exists_applyAll (counts : ∀ effect ∈ effects, 0 ≤ effect.amount)
    (inRange : state.InRange)
    (fits : ∀ term, state.read term + amountOn term effects ≤ 2147483647) :
    ∃ next, applyAll effects state = .ok () next := by
  induction effects generalizing state with
  | nil => exact ⟨state, rfl⟩
  | cons effect rest ih =>
      have here := counts effect List.mem_cons_self
      have restCounts : ∀ other ∈ rest, 0 ≤ other.amount :=
        fun other member => counts other (List.mem_cons_of_mem _ member)
      have stored : Amount.InRange (state.read effect.term + effect.amount) := by
        have room := fits effect.term
        have low := (inRange effect.term).1
        have more : 0 ≤ amountOn effect.term rest :=
          amountOn_nonneg fun other member _ => restCounts other member
        rw [amountOn_cons, if_pos rfl] at room
        constructor <;> omega
      have applied : Progression.apply effect state = .ok () _ :=
        Progression.apply_eq_ok_iff.2 ⟨stored, rfl⟩
      obtain ⟨next, later⟩ := ih restCounts (inRange.set effect.term stored) (by
        intro term
        have room := fits term
        rw [amountOn_cons] at room
        rw [Progression.read_set]
        by_cases same : effect.term = term
        · subst same
          rw [if_pos rfl] at room ⊢
          omega
        · rw [if_neg same] at room
          rw [if_neg (Ne.symm same)]
          omega)
      exact ⟨next, EStateM.forM_cons_eq_ok_iff.2 ⟨_, applied, later⟩⟩

end ApplyAll

section Counts

variable {item : Item} {vars : VariableTable} {state next : Progression}

/-- An item with a term of its own sets it and cannot fail. -/
theorem grant_of_sets {own : TermId} (sets : item.setTerm? = some own) :
    item.grant vars state = .ok () (state.set own 1) := by
  cases item with
  | bool name term =>
      cases sets
      rw [grant.eq_def]
      rfl
  | _ => cases sets

/-- An item that counts and sets no term has its increments as effects. -/
theorem Counts.grant_of_adds (counts : item.Counts) (adds : item.setTerm? = none) :
    item.grant vars = applyAll item.increments := by
  rw [grant.eq_def]
  cases item with
  | bool => cases adds
  | single name effect => exact bind_pure_unit.symm
  | multi => rfl
  | empty => rfl
  | capped => exact counts.elim
  | branched => exact counts.elim

/-- What a grant of an item that counts makes of each term. -/
theorem Counts.read_grant (counts : item.Counts) (ran : item.grant vars state = .ok () next)
    (term : TermId) :
    next.read term =
      if item.setTerm? = some term then 1
      else state.read term + amountOn term item.increments := by
  cases sets : item.setTerm? with
  | none =>
      rw [counts.grant_of_adds sets] at ran
      exact read_applyAll ran term
  | some own =>
      rw [grant_of_sets sets] at ran
      cases ran
      have none : item.increments = [] := by
        cases item with
        | bool => rfl
        | _ => cases sets
      rw [Progression.read_set, none]
      by_cases same : term = own
      · subst same
        simp
      · rw [if_neg same, if_neg fun equal => same (Option.some.inj equal).symm]
        exact (Int.add_zero _).symm

/-- A grant of an item that counts keeps progression in range. -/
theorem Counts.inRange_grant (counts : item.Counts) (inRange : state.InRange)
    (ran : item.grant vars state = .ok () next) : next.InRange := by
  cases sets : item.setTerm? with
  | none =>
      rw [counts.grant_of_adds sets] at ran
      exact inRange_applyAll inRange ran
  | some own =>
      rw [grant_of_sets sets] at ran
      cases ran
      exact inRange.set own (by decide)

/-- Where all sums fit, an item that counts can be granted. -/
theorem Counts.exists_grant (counts : item.Counts) (inRange : state.InRange)
    (fits : ∀ term, state.read term + amountOn term item.increments ≤ 2147483647) :
    ∃ next, item.grant vars state = .ok () next := by
  cases sets : item.setTerm? with
  | none =>
      rw [counts.grant_of_adds sets]
      exact exists_applyAll (fun _ => counts.nonneg) inRange fits
  | some own => exact ⟨_, grant_of_sets sets⟩

end Counts

end Item

end Randomizer
