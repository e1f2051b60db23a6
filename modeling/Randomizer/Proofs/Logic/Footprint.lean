import Randomizer.Logic.Formula
import Randomizer.Placement.Participant
import Randomizer.Proofs.Logic.Registration

namespace Randomizer

/-- Once its duplicates are erased a list has none. -/
theorem nodup_eraseDups {α : Type} [BEq α] [LawfulBEq α] (list : List α) :
    list.eraseDups.Nodup := by
  induction count : list.length using Nat.strong_induction_on generalizing list with
  | _ bound ih =>
      cases list with
      | nil => exact List.nodup_nil
      | cons first rest =>
          have fewer := List.length_filter_le (fun other => !other == first) rest
          rw [List.length_cons] at count
          rw [List.eraseDups_cons, List.nodup_cons, List.mem_eraseDups, List.mem_filter]
          exact ⟨by simp, ih _ (by omega) _ rfl⟩

/-- Two readings have the same value for each of the terms. -/
def Reading.AgreeOn (first second : Reading) (terms : List TermId) : Prop :=
  ∀ term ∈ terms, first term = second term

/-- Readings that agree on some terms agree on fewer. -/
theorem Reading.AgreeOn.mono {first second : Reading} {terms fewer : List TermId}
    (agree : first.AgreeOn second terms) (part : ∀ term ∈ fewer, term ∈ terms) :
    first.AgreeOn second fewer :=
  fun term member => agree term (part term member)

/-- Whoever asks, the value depends on nothing but the terms that the variable lists. -/
def Variable.Candid (quantity : Variable) : Prop :=
  ∀ (requester : String) (first second : Reading), first.AgreeOn second quantity.terms →
    quantity.value requester first = quantity.value requester second

/-- A constant reads no term, and need not. -/
theorem Variable.candid_constant (value : Int) : (Variable.constant value).Candid :=
  fun _ _ _ _ => rfl

/-- A formula reads no terms but its own. -/
theorem Formula.value_congr (formula : Formula) (requester : String) {first second : Reading}
    (agree : first.AgreeOn second formula.terms) :
    formula.value requester first = formula.value requester second := by
  cases formula with
  | sum terms =>
      have total (start : Int) :
          terms.foldl (fun total term => Amount.wrap (total + first term)) start =
            terms.foldl (fun total term => Amount.wrap (total + second term)) start := by
        have same : ∀ term ∈ terms, first term = second term := agree
        clear agree
        induction terms generalizing start with
        | nil => rfl
        | cons term rest ih =>
            rw [List.foldl_cons, List.foldl_cons, same term (by simp)]
            exact ih _ fun other member => same other (by simp [member])
      exact total 0
  | double term =>
      have same : first term = second term := agree term (List.mem_singleton_self term)
      rw [value, value, same]
  | requester name => rfl

/-- Every variable that is found is candid. -/
def Resolver.Candid (resolver : Resolver) : Prop :=
  ∀ terms name quantity, resolver terms name = some quantity → quantity.Candid

namespace Resolver

/-- The variables that integers spell are candid. -/
theorem candid_integers : Resolver.integers.Candid := by
  intro _ name quantity found
  obtain ⟨value, _, rfl⟩ := Option.map_eq_some_iff.1 found
  exact Variable.candid_constant value

/-- The variables that formulas spell are candid. -/
theorem candid_formulas : Resolver.formulas.Candid := by
  intro terms name quantity found
  obtain ⟨formula, _, rfl⟩ := Option.map_eq_some_iff.1 found
  exact fun requester _ _ agree => formula.value_congr requester agree

/-- Two candid resolvers, one after the other, are candid. -/
theorem Candid.orElse {first second : Resolver} (candid : first.Candid)
    (candidSecond : second.Candid) : (first.orElse second).Candid := by
  intro terms name quantity found
  rcases Option.or_eq_some_iff.1 found with ofFirst | ⟨_, ofSecond⟩
  · exact candid terms name quantity ofFirst
  · exact candidSecond terms name quantity ofSecond

end Resolver

namespace VariableTable

/-- Every variable of the table is candid. -/
def Candid (vars : VariableTable) : Prop :=
  ∀ registration ∈ vars.registrations, registration.quantity.Candid

variable {vars : VariableTable}

/-- Variables that a candid resolver finds are candid. -/
theorem FoundBy.candid {terms : TermTable} {resolver : Resolver}
    (found : vars.FoundBy terms resolver) (candid : resolver.Candid) : vars.Candid :=
  fun registration member => candid terms _ _ (found.matched registration member).2

/-- A slot has the same value where the terms of its variable read alike. -/
theorem Candid.value_congr (candid : vars.Candid) {requester : String} {first second : Reading}
    {slot : Nat}
    (agree : first.AgreeOn second (((vars.atSlot? slot).map Variable.terms).getD [])) :
    vars.value requester first slot = vars.value requester second slot := by
  unfold VariableTable.value
  cases found : vars.atSlot? slot with
  | none => rfl
  | some quantity =>
      obtain ⟨registration, registered, rfl⟩ := Option.map_eq_some_iff.1 found
      rw [found] at agree
      exact candid registration (List.mem_of_getElem? registered) requester first second agree

end VariableTable

section Candid

variable {vars : VariableTable} (candid : vars.Candid) {requester : String}
  {first second : Reading}

include candid

/-- A symbol does the same to the stack, whether it has a meaning and operands or not. -/
theorem Program.step_congr {code : Int}
    (agree : first.AgreeOn second (Definition.termsOfCode vars code)) (stack : List Int) :
    step (vars.inputs requester first) stack code =
      step (vars.inputs requester second) stack code := by
  unfold step
  unfold Definition.termsOfCode at agree
  cases meaning : Symbol.ofCode? code with
  | none => rfl
  | some symbol =>
      rw [meaning] at agree
      cases symbol with
      | term id => exact congrArg (· :: stack) (agree id (List.mem_singleton_self id))
      | slot slot => exact congrArg (· :: stack) (candid.value_congr agree)
      | operator kind => rfl

/-- A program runs alike where the terms of its codes read alike. -/
theorem Program.run_congr {program : Program}
    (agree : first.AgreeOn second (program.flatMap (Definition.termsOfCode vars)))
    (stack : List Int) :
    run (vars.inputs requester first) program stack =
      run (vars.inputs requester second) program stack := by
  induction program generalizing stack with
  | nil => rfl
  | cons code rest ih =>
      rw [List.flatMap_cons] at agree
      have here : step (vars.inputs requester first) stack code =
          step (vars.inputs requester second) stack code :=
        step_congr candid (agree.mono fun term => List.mem_append_left _) stack
      change run _ rest (step _ stack code) = run _ rest (step _ stack code)
      rw [here]
      exact ih (agree.mono fun term => List.mem_append_right _) _

/-- What a definition's program gives, whoever asks, depends on the terms of the definition. -/
theorem Definition.program_value_congr {definition : Definition}
    (agree : first.AgreeOn second (definition.terms vars)) :
    definition.program.value (vars.inputs requester first) =
      definition.program.value (vars.inputs requester second) := by
  have read := agree.mono fun term => List.mem_eraseDups.2
  rw [Program.value, Program.value, Program.run_congr candid read]

/-- A definition holds alike where its terms read alike. -/
theorem Definition.holds_congr {definition : Definition}
    (agree : first.AgreeOn second (definition.terms vars)) :
    definition.holds vars first = definition.holds vars second := by
  rw [holds, holds, value, value, definition.program_value_congr candid agree]

/-- A cost is met alike where its terms read alike. -/
theorem Cost.isMet_congr {cost : Cost} (agree : first.AgreeOn second (cost.terms vars)) :
    cost.isMet vars first = cost.isMet vars second := by
  cases cost with
  | threshold least =>
      have same : first least.term = second least.term :=
        agree least.term (List.mem_singleton_self least.term)
      rw [isMet, isMet, same]
  | logic definition => exact definition.holds_congr candid agree

/-- A cost that is not met spares the others and the logic, but whether it is met depends on terms
that are listed. -/
theorem WorldLocation.isOpen_congr {location : WorldLocation}
    (agree : first.AgreeOn second (location.terms vars)) :
    location.isOpen vars first = location.isOpen vars second := by
  have read := agree.mono fun term => List.mem_eraseDups.2
  have logic := location.logic.holds_congr candid (read.mono fun term => List.mem_append_left _)
  have costs : location.costs.all (·.isMet vars first) =
      location.costs.all (·.isMet vars second) := by
    rw [Bool.eq_iff_iff, List.all_eq_true, List.all_eq_true]
    refine forall₂_congr fun cost member => ?_
    have listed (term : TermId) (among : term ∈ cost.terms vars) :
        term ∈ location.logic.terms vars ++ location.costs.flatMap (·.terms vars) :=
      List.mem_append_right _ (List.mem_flatMap.2 ⟨cost, member, among⟩)
    rw [cost.isMet_congr candid (read.mono listed)]
  rw [isOpen, isOpen, logic, costs]

end Candid

namespace Manager

/-- With candid variables, the terms that a definition lists, each once, decide its value, and those
of a location whether it is open. -/
theorem terms_decide (manager : Manager) (candid : manager.vars.Candid) :
    (∀ definition : Definition, (definition.terms manager.vars).Nodup ∧
      ∀ (requester : String) (first second : Reading),
        first.AgreeOn second (definition.terms manager.vars) →
          definition.program.value (manager.vars.inputs requester first) =
            definition.program.value (manager.vars.inputs requester second)) ∧
    ∀ location : WorldLocation, (location.terms manager.vars).Nodup ∧
      ∀ first second : Reading, first.AgreeOn second (location.terms manager.vars) →
        location.isOpen manager.vars first = location.isOpen manager.vars second := by
  refine ⟨fun definition => ⟨nodup_eraseDups _, fun requester first second agree => ?_⟩,
    fun location => ⟨nodup_eraseDups _, fun first second agree => ?_⟩⟩
  · exact definition.program_value_congr candid agree
  · exact location.isOpen_congr candid agree

/-- A manager with one variable, which doubles the first of three terms. -/
def stall : Manager where
  terms := ⟨["Coins", "Key", "Lamp"], by decide⟩
  macros := ∅
  resolver := Resolver.formulas
  vars := ⟨[⟨"$double:Coins", "$double:Coins",
    fun requester reading => (Formula.double ⟨0⟩).value requester reading, [⟨0⟩]⟩]⟩
  definitions := ∅
  items := ∅
  transitions := ∅
  waypoints := ∅

/-- The variables of the stall are candid. -/
theorem candid_stall : stall.vars.Candid := by
  have matched : Resolver.formulas stall.terms "$double:Coins" =
      some ⟨"$double:Coins",
        fun requester reading => (Formula.double ⟨0⟩).value requester reading, [⟨0⟩]⟩ := by
    cbv
  have found : stall.vars.FoundBy stall.terms stall.resolver :=
    (VariableTable.foundBy_empty _ _).register (by decide +kernel) rfl matched
  exact found.candid Resolver.candid_formulas

/-- The program misses operands and mentions a code without meaning and a slot without a variable;
the two readings differ in the term that is not listed. -/
theorem terms_decide_stall :
    let location : WorldLocation :=
      (WorldLocation.ofDefinition ⟨"Stall", [-1, -50, -105, -100, -7, 0, -2]⟩).addCost
        (.threshold ⟨⟨1⟩, 1⟩)
    let first := (Progression.ofAmounts [⟨⟨0⟩, 3⟩, ⟨⟨1⟩, 1⟩, ⟨⟨2⟩, 7⟩]).read
    let second := (Progression.ofAmounts [⟨⟨0⟩, 3⟩, ⟨⟨1⟩, 1⟩]).read
    stall.vars.Candid ∧ location.terms stall.vars = [⟨0⟩, ⟨1⟩] ∧
      first.AgreeOn second (location.terms stall.vars) ∧ first ≠ second ∧
      location.logic.program.value (stall.vars.inputs "Gate" first) =
        location.logic.program.value (stall.vars.inputs "Gate" second) ∧
      location.isOpen stall.vars first = location.isOpen stall.vars second := by
  intro location first second
  have listed : location.terms stall.vars = [⟨0⟩, ⟨1⟩] := by decide +kernel
  have agree : first.AgreeOn second (location.terms stall.vars) := by
    rw [listed]
    unfold Reading.AgreeOn
    decide +kernel
  have logic : first.AgreeOn second (location.logic.terms stall.vars) := by
    unfold Reading.AgreeOn
    decide +kernel
  have differ : first ⟨2⟩ ≠ second ⟨2⟩ := by decide +kernel
  obtain ⟨ofDefinition, ofLocation⟩ := terms_decide stall candid_stall
  exact ⟨candid_stall, listed, agree, fun same => differ (congrFun same _),
    (ofDefinition location.logic).2 "Gate" first second logic,
    (ofLocation location).2 first second agree⟩

end Manager

end Randomizer
