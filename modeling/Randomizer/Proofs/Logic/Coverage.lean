import Randomizer.Proofs.Logic.Footprint
import Randomizer.Proofs.Logic.Item

namespace Randomizer

/-- An increase that is refused has grown the storage, which no term reads. -/
theorem Progression.keeps_increase {term other : TermId} {value : Int} (apart : other ≠ term)
    (amount : Int) :
    EStateM.Keeps (increase other amount) fun progression => progression.read term = value := by
  intro state kept
  by_cases stored : Amount.InRange (state.read other + amount)
  · have ran : increase other amount state = .ok () (state.set other _) := if_pos stored
    rw [EStateM.ending, ran]
    exact (read_set _ _ _ _).trans ((if_neg apart.symm).trans kept)
  · have stopped : increase other amount state = .error .add (state.extend other) :=
      if_neg stored
    rw [EStateM.ending, stopped]
    exact (congrFun (read_extend state other) term).trans kept

namespace Item

/-- One of the effects anywhere in the item is on the term. -/
inductive Affects (term : TermId) : Item → Prop where
  | bool {name : String} : Affects term (.bool name term)
  | single {name : String} {effect : TermAmount} : effect.term = term →
      Affects term (.single name effect)
  | multi {name : String} {effects : List TermAmount} {effect : TermAmount} :
      effect ∈ effects → effect.term = term → Affects term (.multi name effects)
  | capped {name : String} {effects : List TermAmount} {cap effect : TermAmount} :
      effect ∈ effects → effect.term = term → Affects term (.capped name effects cap)
  | whenTrue {name : String} {guard : Definition} {item : Item} {whenFalse : Option Item} :
      Affects term item → Affects term (.branched name guard (some item) whenFalse)
  | whenFalse {name : String} {guard : Definition} {whenTrue : Option Item} {item : Item} :
      Affects term item → Affects term (.branched name guard whenTrue (some item))

variable {item : Item} {effects : List TermAmount} {term : TermId} {value : Int}

/-- A branch lists the terms of its item, if it has one. -/
theorem mem_branchTerms_iff {branch : Option Item} :
    term ∈ branchTerms branch ↔ ∃ item, branch = some item ∧ term ∈ item.effectTerms := by
  cases branch with
  | none => simp [branchTerms]
  | some item => simp [branchTerms]

/-- The list of terms has exactly those that the item affects. -/
theorem mem_effectTerms_iff : term ∈ item.effectTerms ↔ item.Affects term := by
  induction item with
  | bool name own =>
      rw [effectTerms, List.mem_singleton]
      constructor
      · rintro rfl
        exact .bool
      · intro affects
        cases affects with
        | bool => rfl
  | single name effect =>
      rw [effectTerms, List.mem_singleton]
      constructor
      · exact fun same => .single same.symm
      · intro affects
        cases affects with
        | single same => exact same.symm
  | multi name effects =>
      rw [effectTerms, List.mem_map]
      constructor
      · rintro ⟨effect, member, same⟩
        exact .multi member same
      · intro affects
        cases affects with
        | multi member same => exact ⟨_, member, same⟩
  | capped name effects cap =>
      rw [effectTerms, List.mem_map]
      constructor
      · rintro ⟨effect, member, same⟩
        exact .capped member same
      · intro affects
        cases affects with
        | capped member same => exact ⟨_, member, same⟩
  | branched name guard whenTrue whenFalse ihTrue ihFalse =>
      rw [effectTerms_branched, List.mem_append, mem_branchTerms_iff, mem_branchTerms_iff]
      constructor
      · rintro (⟨item, rfl, member⟩ | ⟨item, rfl, member⟩)
        · exact .whenTrue ((ihTrue item rfl).1 member)
        · exact .whenFalse ((ihFalse item rfl).1 member)
      · intro affects
        cases affects with
        | whenTrue within => exact .inl ⟨_, rfl, (ihTrue _ rfl).2 within⟩
        | whenFalse within => exact .inr ⟨_, rfl, (ihFalse _ rfl).2 within⟩
  | empty name =>
      rw [effectTerms]
      constructor
      · intro member
        cases member
      · intro affects
        cases affects

/-- Effects on other terms leave a term as it is. -/
theorem keeps_applyAll (outside : ∀ effect ∈ effects, effect.term ≠ term) :
    EStateM.Keeps (applyAll effects) fun state => state.read term = value :=
  EStateM.keeps_forM fun effect member =>
    Progression.keeps_increase (outside effect member) effect.amount

/-- Undoing an effect on another term leaves a term as it is. -/
theorem keeps_unapply {effect : TermAmount} (outside : effect.term ≠ term) :
    EStateM.Keeps (unapply effect) fun state => state.read term = value := by
  unfold unapply
  split
  · exact Progression.keeps_increase outside (-effect.amount)
  · exact EStateM.keeps_throw _

/-- A branch leaves a term as it is if its item does. -/
theorem keeps_grantBranch {vars : VariableTable} {branch : Option Item}
    (each : ∀ item, branch = some item →
      EStateM.Keeps (item.grant vars) fun state => state.read term = value) :
    EStateM.Keeps (grantBranch vars branch) fun state => state.read term = value := by
  cases branch with
  | none => exact EStateM.keeps_pure ()
  | some item => exact each item rfl

/-- Which branch is taken depends on the state, but no branch leaves the terms of the item. -/
theorem keeps_grant (vars : VariableTable) (outside : ¬ item.Affects term) :
    EStateM.Keeps (item.grant vars) fun state => state.read term = value := by
  induction item with
  | bool name own =>
      rw [grant.eq_def]
      refine EStateM.keeps_modify fun state kept => ?_
      rw [Progression.read_set, if_neg]
      · exact kept
      · rintro rfl
        exact outside .bool
  | single name effect =>
      rw [grant.eq_def]
      exact Progression.keeps_increase (fun same => outside (.single same)) effect.amount
  | multi name effects =>
      rw [grant.eq_def]
      exact keeps_applyAll fun effect member same => outside (.multi member same)
  | capped name effects cap =>
      rw [grant.eq_def]
      refine EStateM.keeps_get_bind fun state => ?_
      split
      · exact EStateM.keeps_pure ()
      · exact keeps_applyAll fun effect member same => outside (.capped member same)
  | branched name guard whenTrue whenFalse ihTrue ihFalse =>
      rw [grant_branched]
      refine EStateM.keeps_get_bind fun state => ?_
      split
      · refine keeps_grantBranch fun item found => ihTrue item found fun affects => outside ?_
        subst found
        exact .whenTrue affects
      · refine keeps_grantBranch fun item found => ihFalse item found fun affects => outside ?_
        subst found
        exact .whenFalse affects
  | empty name =>
      rw [grant.eq_def]
      exact EStateM.keeps_pure ()

/-- What is undone of an item leaves the terms outside it as they are. -/
theorem keeps_revoke {undo : EStateM Overflow Progression Unit} (allowed : item.revoke = .ok undo)
    (outside : ¬ item.Affects term) :
    EStateM.Keeps undo fun state => state.read term = value := by
  cases item with
  | single name effect =>
      cases allowed
      exact keeps_unapply fun same => outside (.single same)
  | multi name effects =>
      cases allowed
      exact EStateM.keeps_forM fun effect member =>
        keeps_unapply fun same => outside (.multi member same)
  | _ => cases allowed

/-- The affected terms are those of the effects anywhere in the item, each listed once, and every
other term reads the same after a grant or a revocation, also after one that overflowed. -/
theorem affectedTerms_cover (item : Item) :
    (∀ (vars : VariableTable) (state : Progression) (term : TermId), term ∉ item.affectedTerms →
      (EStateM.ending (item.grant vars) state).read term = state.read term ∧
        ∀ undo, item.revoke = .ok undo →
          (EStateM.ending undo state).read term = state.read term) ∧
      item.affectedTerms.Nodup ∧
      ∀ term, term ∈ item.affectedTerms ↔ item.Affects term := by
  have listed (term : TermId) : term ∈ item.affectedTerms ↔ item.Affects term :=
    List.mem_eraseDups.trans mem_effectTerms_iff
  refine ⟨fun vars state term outside => ?_, nodup_eraseDups _, listed⟩
  rw [listed] at outside
  exact ⟨keeps_grant vars outside state rfl,
    fun undo allowed => keeps_revoke allowed outside state rfl⟩

end Item

end Randomizer
