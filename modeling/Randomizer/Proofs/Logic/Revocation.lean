import Randomizer.Proofs.Logic.Grant

/-!
Grants taken back. Items that can be removed only add, so grants and revocations move what a term
reads by fixed amounts and their order makes no difference to where they end. A revocation negates
each amount and takes the effects back in the order in which they were granted; it comes through
when no amount and nothing on the way leaves the range of amounts.
-/

namespace Randomizer

namespace Item

/-- The effects taken back in order; one that overflows stops those after it. -/
def unapplyAll (effects : List TermAmount) : EStateM Overflow Progression Unit :=
  effects.forM unapply

section UnapplyAll

variable {effect : TermAmount} {effects : List TermAmount} {start state next : Progression}

/-- An effect is undone unless its negation or the result is out of range. -/
theorem unapply_eq_ok_iff :
    unapply effect state = .ok () next ↔
      Amount.InRange (-effect.amount) ∧
        Amount.InRange (state.read effect.term - effect.amount) ∧
        next = state.set effect.term (state.read effect.term - effect.amount) := by
  rw [unapply, Int.sub_eq_add_neg]
  split
  next negates =>
    change Progression.apply ⟨effect.term, -effect.amount⟩ state = _ ↔ _
    rw [Progression.apply_eq_ok_iff, and_iff_right negates]
  next least => exact iff_of_false nofun fun all => least all.1

/-- Undoing an effect takes its amount off its term. -/
theorem read_of_unapply (ran : unapply effect state = .ok () next) (term : TermId) :
    next.read term = state.read term - if effect.term = term then effect.amount else 0 := by
  obtain ⟨_, _, rfl⟩ := unapply_eq_ok_iff.1 ran
  rw [Progression.read_set]
  by_cases same : effect.term = term
  · rw [if_pos same.symm, if_pos same, same]
  · rw [if_neg (Ne.symm same), if_neg same, Int.sub_zero]

/-- Undoing effects takes all that they have on a term off it. -/
theorem read_unapplyAll (ran : unapplyAll effects state = .ok () next) (term : TermId) :
    next.read term = state.read term - amountOn term effects := by
  induction effects generalizing state with
  | nil =>
      cases ran
      exact (Int.sub_zero _).symm
  | cons effect rest ih =>
      obtain ⟨middle, first, later⟩ := EStateM.forM_cons_eq_ok_iff.1 ran
      rw [ih later, read_of_unapply first, amountOn_cons]
      omega

/-- Effects that can be taken back in their own order until a start is reached: each amount can be
negated, and the start fits together with what is still to be taken back. -/
def Reversible (start : Progression) : List TermAmount → Prop
  | [] => True
  | effect :: rest =>
    Amount.InRange (-effect.amount) ∧
      Amount.InRange (start.read effect.term + amountOn effect.term rest) ∧
      Reversible start rest

/-- While the effects still lie on top of the start, taking them back succeeds just when they are
reversible. -/
theorem exists_unapplyAll_iff
    (above : ∀ term, state.read term = start.read term + amountOn term effects) :
    (∃ last, unapplyAll effects state = .ok () last) ↔ Reversible start effects := by
  induction effects generalizing state with
  | nil => exact iff_of_true ⟨state, rfl⟩ trivial
  | cons effect rest ih =>
      -- The first effect leaves with all the others still in place, so what it meets is not what
      -- the term read when it was granted.
      have left : state.read effect.term - effect.amount =
          start.read effect.term + amountOn effect.term rest := by
        rw [above, amountOn_cons, if_pos rfl]
        omega
      have below {middle : Progression} (first : unapply effect state = .ok () middle)
          (term : TermId) : middle.read term = start.read term + amountOn term rest := by
        rw [read_of_unapply first, above, amountOn_cons]
        omega
      constructor
      · rintro ⟨last, ran⟩
        obtain ⟨middle, first, later⟩ := EStateM.forM_cons_eq_ok_iff.1 ran
        obtain ⟨negates, stored, _⟩ := unapply_eq_ok_iff.1 first
        exact ⟨negates, left ▸ stored, (ih (below first)).1 ⟨last, later⟩⟩
      · rintro ⟨negates, stored, reversible⟩
        have first : unapply effect state = .ok () _ :=
          unapply_eq_ok_iff.2 ⟨negates, left.symm ▸ stored, rfl⟩
        obtain ⟨last, later⟩ := (ih (below first)).2 reversible
        exact ⟨last, EStateM.forM_cons_eq_ok_iff.2 ⟨_, first, later⟩⟩

/-- Effects that can be negated and that do not pull any term in both directions. -/
structure OneWay (effects : List TermAmount) : Prop where
  negates : ∀ effect ∈ effects, Amount.InRange (-effect.amount)
  direction : ∀ term, (∀ effect ∈ effects, effect.term = term → 0 ≤ effect.amount) ∨
    ∀ effect ∈ effects, effect.term = term → effect.amount ≤ 0

/-- The rest of effects that go one way does so too. -/
theorem OneWay.tail (oneWay : OneWay (effect :: effects)) : OneWay effects where
  negates := fun other member => oneWay.negates other (List.mem_cons_of_mem _ member)
  direction := fun term => (oneWay.direction term).imp
    (fun up other member => up other (List.mem_cons_of_mem _ member))
    fun down other member => down other (List.mem_cons_of_mem _ member)

/-- What all but the first effect add to a term lies between nothing and what all of them add. -/
theorem OneWay.amountOn_tail (oneWay : OneWay (effect :: effects)) (term : TermId) :
    (0 ≤ amountOn term effects ∧ amountOn term effects ≤ amountOn term (effect :: effects)) ∨
      (amountOn term effects ≤ 0 ∧ amountOn term (effect :: effects) ≤ amountOn term effects) := by
  rw [amountOn_cons]
  rcases oneWay.direction term with up | down
  · refine .inl ⟨amountOn_nonneg fun other member => up other (List.mem_cons_of_mem _ member), ?_⟩
    split
    next same =>
      have adds := up effect List.mem_cons_self same
      omega
    · omega
  · refine .inr ⟨amountOn_nonpos fun other member => down other (List.mem_cons_of_mem _ member), ?_⟩
    split
    next same =>
      have takes := down effect List.mem_cons_self same
      omega
    · omega

/-- What is still to be taken back of such effects never reaches beyond all of them together. -/
theorem OneWay.reversible (oneWay : OneWay effects) (inRange : start.InRange)
    (fits : ∀ term, Amount.InRange (start.read term + amountOn term effects)) :
    Reversible start effects := by
  induction effects with
  | nil => trivial
  | cons effect rest ih =>
      have between (term : TermId) : Amount.InRange (start.read term + amountOn term rest) := by
        obtain ⟨low, high⟩ := fits term
        obtain ⟨least, most⟩ := inRange term
        rcases oneWay.amountOn_tail term with ⟨adds, within⟩ | ⟨takes, within⟩
        · constructor <;> omega
        · constructor <;> omega
      exact ⟨oneWay.negates effect List.mem_cons_self, between effect.term, ih oneWay.tail between⟩

end UnapplyAll

section Removable

variable {item : Item}

/-- A removable item is revoked by undoing its increments. -/
theorem revoke_of_removable (removable : item.isRemovable) :
    item.revoke = .ok (unapplyAll item.increments) := by
  cases item with
  | single name effect => exact congrArg Except.ok bind_pure_unit.symm
  | multi name effects => rfl
  | _ => cases removable

/-- A removable item is granted by its increments. -/
theorem grant_of_removable (vars : VariableTable) (removable : item.isRemovable) :
    item.grant vars = applyAll item.increments := by
  rw [grant.eq_def]
  cases item with
  | single name effect => exact bind_pure_unit.symm
  | multi name effects => rfl
  | _ => cases removable

end Removable

/-- A grant that was just made can be revoked exactly when its effects are reversible, which those
that pull no term in both directions always are. A revocation that comes through puts every term
back. -/
theorem revoke_restores {item : Item} (removable : item.isRemovable) {vars : VariableTable}
    {state next : Progression} (inRange : state.InRange)
    (granted : item.grant vars state = .ok () next) :
    ∃ undo, item.revoke = .ok undo ∧
      ((∃ last, undo next = .ok () last) ↔ Reversible state item.increments) ∧
      (OneWay item.increments → Reversible state item.increments) ∧
      ∀ last, undo next = .ok () last → last.read = state.read := by
  rw [grant_of_removable vars removable] at granted
  have above := read_applyAll granted
  refine ⟨_, revoke_of_removable removable, exists_unapplyAll_iff above, fun oneWay => ?_,
    fun last ran => ?_⟩
  · refine oneWay.reversible inRange fun term => ?_
    rw [← above]
    exact inRange_applyAll inRange granted term
  · funext term
    rw [read_unapplyAll ran, above]
    omega

/-- Coins come twice and a debt is paid off in between. -/
def ransom : Item := .multi "Ransom" [⟨⟨0⟩, 3⟩, ⟨⟨1⟩, -2⟩, ⟨⟨0⟩, 2147483000⟩]

/-- The ransom is granted and then undone. -/
theorem revoke_restores_ransom :
    ∃ next undo last, ransom.grant ∅ ⟨#[5, 7]⟩ = .ok () next ∧ ransom.revoke = .ok undo ∧
      undo next = .ok () last ∧ last.read = Progression.read ⟨#[5, 7]⟩ := by
  have removable : ransom.isRemovable := rfl
  have inRange : Progression.InRange ⟨#[5, 7]⟩ := by
    intro term
    match term with
    | ⟨0⟩ | ⟨1⟩ => decide
    | ⟨_ + 2⟩ => exact (by decide : Amount.InRange 0)
  have granted : ransom.grant ∅ ⟨#[5, 7]⟩ = .ok () ⟨#[2147483008, 5]⟩ := rfl
  have oneWay : OneWay ransom.increments := by
    constructor
    · decide
    · intro term
      by_cases coins : term = ⟨0⟩
      · subst coins
        exact .inl (by decide)
      · refine .inr ?_
        simp only [ransom, increments, List.forall_mem_cons]
        grind
  obtain ⟨undo, allowed, succeeds, reversible, restores⟩ :=
    revoke_restores removable inRange granted
  obtain ⟨last, ran⟩ := succeeds.2 (reversible oneWay)
  exact ⟨_, undo, last, granted, allowed, ran, restores last ran⟩

/-- The least amount cannot be negated, and an amount that was lifted back to the top would be
lifted past it: both grants succeed and neither can be revoked. -/
theorem revoke_stops :
    (single "Drain" ⟨⟨0⟩, -2147483648⟩).grant ∅ ⟨#[5]⟩ = .ok () ⟨#[-2147483643]⟩ ∧
      (∃ undo, (single "Drain" ⟨⟨0⟩, -2147483648⟩).revoke = .ok undo ∧
        undo ⟨#[-2147483643]⟩ = .error .negate ⟨#[-2147483643]⟩) ∧
      (multi "Swap" [⟨⟨0⟩, -1⟩, ⟨⟨0⟩, 1⟩]).grant ∅ ⟨#[2147483647]⟩ = .ok () ⟨#[2147483647]⟩ ∧
      ∃ undo, (multi "Swap" [⟨⟨0⟩, -1⟩, ⟨⟨0⟩, 1⟩]).revoke = .ok undo ∧
        undo ⟨#[2147483647]⟩ = .error .add ⟨#[2147483647]⟩ :=
  ⟨rfl, ⟨_, rfl, rfl⟩, rfl, ⟨_, rfl, rfl⟩⟩

end Item

/-- One call on a progression. -/
inductive Change where
  | grant (item : Item)
  | revoke (item : Item)

namespace Change

def item : Change → Item
  | grant item | revoke item => item

/-- A revocation that is refused changes nothing. -/
def perform (vars : VariableTable) : Change → EStateM Overflow Progression Unit
  | grant item => item.grant vars
  | revoke item =>
    match item.revoke with
    | .ok undo => undo
    | .error _ => return

def performAll (vars : VariableTable) (changes : List Change) :
    EStateM Overflow Progression Unit :=
  changes.forM (perform vars)

/-- The effects that are granted. -/
def gains : Change → List TermAmount
  | grant item => item.increments
  | revoke _ => []

/-- The effects that are taken back. -/
def losses : Change → List TermAmount
  | grant _ => []
  | revoke item => item.increments

section Perform

variable {change : Change} {changes : List Change} {vars : VariableTable}
  {state next : Progression}

/-- A change moves each term by what it gains and loses. -/
theorem read_perform (removable : change.item.isRemovable)
    (ran : change.perform vars state = .ok () next) (term : TermId) :
    next.read term =
      state.read term + amountOn term change.gains - amountOn term change.losses := by
  cases change with
  | grant item =>
      rw [perform, item.grant_of_removable vars removable] at ran
      exact (Item.read_applyAll ran term).trans (Int.sub_zero _).symm
  | revoke item =>
      rw [perform, item.revoke_of_removable removable] at ran
      refine (Item.read_unapplyAll ran term).trans ?_
      exact congrArg (· - amountOn term item.increments) (Int.add_zero _).symm

/-- Changes move each term by all that they gain and lose. -/
theorem read_performAll (removable : ∀ change ∈ changes, change.item.isRemovable)
    (ran : performAll vars changes state = .ok () next) (term : TermId) :
    next.read term = state.read term + amountOn term (changes.flatMap gains) -
      amountOn term (changes.flatMap losses) := by
  induction changes generalizing state with
  | nil =>
      cases ran
      change next.read term = next.read term + 0 - 0
      omega
  | cons change rest ih =>
      obtain ⟨middle, first, later⟩ := EStateM.forM_cons_eq_ok_iff.1 ran
      have here := read_perform (removable change List.mem_cons_self) first term
      have others := ih (fun other member => removable other (List.mem_cons_of_mem _ member)) later
      rw [others, here, List.flatMap_cons, List.flatMap_cons, amountOn_append, amountOn_append]
      omega

end Perform

variable (items : List Item)

/-- Grants gain the increments of their items. -/
theorem flatMap_gains_grants : (items.map grant).flatMap gains = items.flatMap Item.increments :=
  List.flatMap_map ..

/-- Grants lose nothing. -/
theorem flatMap_losses_grants : (items.map grant).flatMap losses = [] := by
  rw [List.flatMap_map]
  exact List.flatMap_eq_nil_iff.2 fun _ _ => rfl

/-- Revocations gain nothing. -/
theorem flatMap_gains_revokes : (items.map revoke).flatMap gains = [] := by
  rw [List.flatMap_map]
  exact List.flatMap_eq_nil_iff.2 fun _ _ => rfl

/-- Revocations lose the increments of their items. -/
theorem flatMap_losses_revokes :
    (items.map revoke).flatMap losses = items.flatMap Item.increments :=
  List.flatMap_map ..

/-- The order of grants and revocations makes no difference to where they end: each term has gained
what was granted and lost what was taken back. Where everything taken back was granted too, the
items that were kept are all that is left. -/
theorem performAll_perm {vars : VariableTable} {changes others : List Change}
    {state next last : Progression} (removable : ∀ change ∈ changes, change.item.isRemovable)
    (same : changes.Perm others) (ran : performAll vars changes state = .ok () next)
    (reordered : performAll vars others state = .ok () last) :
    next.read = last.read ∧
      (∀ term, next.read term = state.read term + amountOn term (changes.flatMap gains) -
        amountOn term (changes.flatMap losses)) ∧
      ∀ kept taken : List Item,
        changes.Perm (kept.map grant ++ taken.map grant ++ taken.map revoke) →
        ∀ term, next.read term =
          state.read term + amountOn term (kept.flatMap Item.increments) := by
  have ends := read_performAll removable ran
  refine ⟨?_, ends, fun kept taken split term => ?_⟩
  · funext term
    rw [ends, read_performAll (fun change member => removable change (same.mem_iff.2 member))
      reordered, amountOn_perm term (same.flatMap_right gains),
      amountOn_perm term (same.flatMap_right losses)]
  · rw [ends, amountOn_perm term (split.flatMap_right gains),
      amountOn_perm term (split.flatMap_right losses)]
    simp only [List.flatMap_append, amountOn_append, flatMap_gains_grants, flatMap_losses_grants,
      flatMap_gains_revokes, flatMap_losses_revokes]
    change _ + (_ + _ + 0) - (0 + 0 + _) = _
    omega

/-- A coin is lent out, and the ransom is paid and returned around it. -/
theorem performAll_perm_ransom :
    ∃ next last,
      performAll ∅ [.grant Item.ransom, .grant (.single "Coin" ⟨⟨0⟩, 1⟩), .revoke Item.ransom]
        ⟨#[5, 7]⟩ = .ok () next ∧
      performAll ∅ [.grant Item.ransom, .revoke Item.ransom, .grant (.single "Coin" ⟨⟨0⟩, 1⟩)]
        ⟨#[5, 7]⟩ = .ok () last ∧
      next.read = last.read ∧ next.read ⟨0⟩ = 5 + 1 := by
  have ran : performAll ∅
      [.grant Item.ransom, .grant (.single "Coin" ⟨⟨0⟩, 1⟩), .revoke Item.ransom]
      ⟨#[5, 7]⟩ = .ok () ⟨#[6, 7]⟩ := rfl
  have reordered : performAll ∅
      [.grant Item.ransom, .revoke Item.ransom, .grant (.single "Coin" ⟨⟨0⟩, 1⟩)]
      ⟨#[5, 7]⟩ = .ok () ⟨#[6, 7]⟩ := rfl
  obtain ⟨same, _, left⟩ := performAll_perm (by decide) (.cons _ (.swap _ _ _)) ran reordered
  have split := left [.single "Coin" ⟨⟨0⟩, 1⟩] [Item.ransom] (.swap _ _ _) ⟨0⟩
  exact ⟨_, _, ran, reordered, same, split⟩

end Change

end Randomizer
