import Mathlib.Algebra.Order.Floor.Semiring
import Mathlib.Data.Rat.Floor
import Randomizer.Proofs.Logic.Grant

/-!
A capped item granted again and again. The cap is looked at once for each grant, whatever the
effects do to its term, so that the grants that take effect are the first ones, and their number
follows from what the cap's term lacks and what one grant adds to it.
-/

namespace Randomizer

namespace Item

/-- The same item granted a number of times. -/
def grantTimes (vars : VariableTable) (item : Item) : Nat → EStateM Overflow Progression Unit
  | 0 => return
  | count + 1 => do
    item.grantTimes vars count
    item.grant vars

/-- The progression that the first grants leave. -/
def afterGrants (vars : VariableTable) (item : Item) (start : Progression) (count : Nat) :
    Progression :=
  EStateM.ending (item.grantTimes vars count) start

/-- How many of the first grants find the cap not reached yet. -/
def openGrants (vars : VariableTable) (item : Item) (cap : TermAmount) (start : Progression)
    (count : Nat) : Nat :=
  (List.range count).countP fun earlier => !(item.afterGrants vars start earlier).reaches cap

/-- How many of several grants it takes to make up for what is missing, or all of them when they
never do. -/
def neededGrants (missing gain : Int) (count : Nat) : Nat :=
  if missing ≤ 0 then 0
  else if gain ≤ 0 then count
  else min count ⌈(missing : ℚ) / gain⌉₊

/-- One more grant is needed as long as the earlier ones have not made up for what is missing. -/
theorem neededGrants_succ (missing gain : Int) (count : Nat) :
    neededGrants missing gain (count + 1) = neededGrants missing gain count +
      if missing ≤ neededGrants missing gain count * gain then 0 else 1 := by
  unfold neededGrants
  by_cases none : missing ≤ 0
  · simp only [none, if_true]
    rw [if_pos (by omega)]
  · rw [if_neg none, if_neg none]
    by_cases idle : gain ≤ 0
    · have product : (count : Int) * gain ≤ 0 := Int.mul_nonpos_of_nonneg_of_nonpos (by omega) idle
      rw [if_pos idle, if_pos idle, if_neg (by omega)]
    · have gains : (0 : ℚ) < gain := by exact_mod_cast not_le.1 idle
      have enough (grants : Nat) :
          ⌈(missing : ℚ) / gain⌉₊ ≤ grants ↔ missing ≤ grants * gain := by
        rw [Nat.ceil_le, div_le_iff₀ gains]
        exact_mod_cast Iff.rfl
      rw [if_neg idle, if_neg idle]
      by_cases met : ⌈(missing : ℚ) / gain⌉₊ ≤ count
      · rw [if_pos ((enough _).1 (le_min met le_rfl))]
        omega
      · rw [if_neg fun all => met (((enough _).2 all).trans (min_le_left _ _))]
        omega

section Capped

variable {vars : VariableTable} {name : String} {effects : List TermAmount} {cap : TermAmount}
  {start state next : Progression} {item : Item} {count : Nat}

/-- At its cap a capped item does nothing. -/
theorem grant_capped_of_reaches (reached : state.reaches cap) :
    (capped name effects cap).grant vars state = .ok () state := by
  rw [grant, EStateM.get_bind_apply, if_pos reached]
  rfl

/-- Below its cap a capped item has all its effects. -/
theorem grant_capped_of_not_reaches (below : ¬ state.reaches cap) :
    (capped name effects cap).grant vars state = applyAll effects state := by
  rw [grant, EStateM.get_bind_apply, if_neg below]

/-- One grant more is a grant after all the others. -/
theorem grantTimes_succ_eq_ok_iff :
    item.grantTimes vars (count + 1) start = .ok () next ↔
      ∃ middle, item.grantTimes vars count start = .ok () middle ∧
        item.grant vars middle = .ok () next := by
  rw [grantTimes, EStateM.bind_eq_ok_iff]
  exact ⟨fun ⟨_, middle, earlier, last⟩ => ⟨middle, earlier, last⟩,
    fun ⟨middle, earlier, last⟩ => ⟨(), middle, earlier, last⟩⟩

/-- Grants that all succeed end in the state after them. -/
theorem afterGrants_of_ok (ran : item.grantTimes vars count start = .ok () next) :
    item.afterGrants vars start count = next := by
  rw [afterGrants, EStateM.ending, ran]

/-- Each of the grants goes on from where those before it ended. -/
theorem grant_afterGrants (ran : item.grantTimes vars count start = .ok () next) {earlier : Nat}
    (before : earlier < count) :
    item.grant vars (item.afterGrants vars start earlier) =
      .ok () (item.afterGrants vars start (earlier + 1)) := by
  induction count generalizing next with
  | zero => omega
  | succ count ih =>
      obtain ⟨middle, ranEarlier, last⟩ := grantTimes_succ_eq_ok_iff.1 ran
      by_cases here : earlier = count
      · subst here
        rw [afterGrants_of_ok ranEarlier, afterGrants_of_ok ran]
        exact last
      · exact ih ranEarlier (by omega)

/-- A further grant is open unless the cap has been reached by then. -/
theorem openGrants_succ (vars : VariableTable) (item : Item) (cap : TermAmount)
    (start : Progression) (count : Nat) :
    item.openGrants vars cap start (count + 1) = item.openGrants vars cap start count +
      if (item.afterGrants vars start count).reaches cap then 0 else 1 := by
  rw [openGrants, List.range_succ, List.countP_append, List.countP_singleton, openGrants]
  cases (item.afterGrants vars start count).reaches cap <;> rfl

/-- Every grant that finds the cap not reached adds all effects, and the others add nothing. -/
theorem read_grantTimes_capped
    (ran : (capped name effects cap).grantTimes vars count start = .ok () next) (term : TermId) :
    next.read term = start.read term +
      (capped name effects cap).openGrants vars cap start count * amountOn term effects := by
  induction count generalizing next with
  | zero =>
      cases ran
      simp [openGrants]
  | succ count ih =>
      obtain ⟨middle, ranEarlier, last⟩ := grantTimes_succ_eq_ok_iff.1 ran
      rw [openGrants_succ, afterGrants_of_ok ranEarlier]
      by_cases reached : middle.reaches cap
      · rw [grant_capped_of_reaches reached] at last
        cases last
        rw [if_pos reached, ih ranEarlier, Nat.add_zero]
      · rw [grant_capped_of_not_reaches reached] at last
        rw [if_neg reached, read_applyAll last, ih ranEarlier, Nat.cast_add, Nat.cast_one,
          Int.add_mul, Int.one_mul, Int.add_assoc]

/-- Of several grants, as many are open as are needed to reach the cap. -/
theorem openGrants_eq_neededGrants
    (ran : (capped name effects cap).grantTimes vars count start = .ok () next) :
    (capped name effects cap).openGrants vars cap start count =
      neededGrants (cap.amount - start.read cap.term) (amountOn cap.term effects) count := by
  induction count generalizing next with
  | zero => simp [openGrants, neededGrants]
  | succ count ih =>
      obtain ⟨middle, ranEarlier, last⟩ := grantTimes_succ_eq_ok_iff.1 ran
      have reads := read_grantTimes_capped ranEarlier cap.term
      have reached : middle.reaches cap ↔ cap.amount - start.read cap.term ≤
          neededGrants (cap.amount - start.read cap.term) (amountOn cap.term effects) count *
            amountOn cap.term effects := by
        rw [← ih ranEarlier, Progression.reaches, decide_eq_true_iff, reads]
        omega
      rw [openGrants_succ, afterGrants_of_ok ranEarlier, neededGrants_succ, ih ranEarlier]
      simp only [reached]

/-- Once the cap is reached nothing changes any more. -/
theorem reaches_afterGrants
    (ran : (capped name effects cap).grantTimes vars count start = .ok () next)
    {earlier later : Nat} (upTo : earlier ≤ later) (before : later < count)
    (reached : ((capped name effects cap).afterGrants vars start earlier).reaches cap) :
    ((capped name effects cap).afterGrants vars start later).reaches cap := by
  induction later, upTo using Nat.le_induction with
  | base => exact reached
  | succ later _ ih =>
      have still := ih (by omega)
      have granted := grant_afterGrants ran (show later < count by omega)
      rw [grant_capped_of_reaches still] at granted
      injection granted with _ same
      exact same ▸ still

/-- As long as nothing overflows, grants of a capped item take effect until the cap is reached and
never again: as many as it takes to make up for what the cap's term lacks, all of them when they
bring it no nearer, and none when nothing is missing. Every term gets its sum of effects that many
times. -/
theorem grantTimes_capped
    (ran : (capped name effects cap).grantTimes vars count start = .ok () next) :
    let after := (capped name effects cap).afterGrants vars start
    let taken := (capped name effects cap).openGrants vars cap start count
    (∀ earlier < count,
      if (after earlier).reaches cap then after (earlier + 1) = after earlier
      else applyAll effects (after earlier) = .ok () (after (earlier + 1))) ∧
    taken = neededGrants (cap.amount - start.read cap.term) (amountOn cap.term effects) count ∧
    (∀ term, next.read term = start.read term + taken * amountOn term effects) ∧
    ∀ earlier later, earlier ≤ later → later < count → (after earlier).reaches cap →
      (after later).reaches cap := by
  dsimp only
  refine ⟨fun earlier before => ?_, openGrants_eq_neededGrants ran, read_grantTimes_capped ran,
    fun earlier later upTo before => reaches_afterGrants ran upTo before⟩
  have granted := grant_afterGrants ran before
  split
  · next reached =>
    rw [grant_capped_of_reaches reached] at granted
    injection granted with _ same
    exact same.symm
  · next below =>
    rw [grant_capped_of_not_reaches below] at granted
    exact granted

/-- Three coins in and one out at each grant. -/
def coins : List TermAmount := [⟨⟨0⟩, 3⟩, ⟨⟨1⟩, -1⟩, ⟨⟨0⟩, -1⟩]

/-- A jar that is full at six coins, which the third grant overshoots. -/
def jar : Item := capped "Jar" coins ⟨⟨0⟩, 6⟩

def oneCoin : Progression := .ofAmounts [⟨⟨0⟩, 1⟩]

/-- Three of five grants go into the jar, and the last of them overshoots. -/
theorem grantTimes_capped_jar :
    ∃ next, jar.grantTimes ∅ 5 oneCoin = .ok () next ∧
      jar.openGrants ∅ ⟨⟨0⟩, 6⟩ oneCoin 5 = 3 ∧ next.read ⟨0⟩ = 7 ∧ next.read ⟨1⟩ = -3 := by
  obtain ⟨next, ran⟩ : ∃ next, jar.grantTimes ∅ 5 oneCoin = .ok () next := ⟨_, rfl⟩
  obtain ⟨_, taken, reads, _⟩ := grantTimes_capped ran
  have needed : neededGrants 5 2 5 = 3 := by
    have rounds : ⌈(5 : ℚ) / 2⌉₊ = 3 := by
      rw [Nat.ceil_eq_iff (by decide)]
      norm_num
    norm_num [neededGrants, rounds]
  have three := taken.trans needed
  have readsThree (term : TermId) :
      next.read term = oneCoin.read term + 3 * amountOn term coins := by
    rw [reads, three]
    rfl
  exact ⟨next, ran, three, readsThree ⟨0⟩, readsThree ⟨1⟩⟩

end Capped

end Item

end Randomizer
