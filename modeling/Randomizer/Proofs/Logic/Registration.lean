import Mathlib.Logic.ExistsUnique
import Randomizer.Proofs.Logic.Build

/-!
The variables that compiling finds. A table has each variable once, under a spelling that is no term
and that the resolver knows, and it stays so through every compilation, also through one that fails
after it has found variables.
-/

namespace Randomizer

open Randomizer.EStateM

/-- Variables kept in two structures: in the order of their slots, and the codes of the names. -/
structure VariableRegister where
  quantities : List Variable
  codes : NameMap Int

namespace VariableRegister

def empty : VariableRegister := ⟨[], ∅⟩

def register (register : VariableRegister) (name : String) (quantity : Variable) :
    VariableRegister :=
  ⟨register.quantities ++ [quantity],
    register.codes.insert name (Symbol.slot register.quantities.length).code⟩

/-- The code of a name: its term, the code on the side, or that of a variable that the resolver
finds and that is registered now. -/
def compileName (scope : Scope) (definition name : String) :
    EStateM Error VariableRegister Int := do
  match scope.terms.idOf? name with
  | some id => return (Symbol.term id).code
  | none =>
    let register ← get
    match register.codes.get? name with
    | some code => return code
    | none =>
      match scope.resolver scope.terms name with
      | none => throw (.unresolvedName definition name)
      | some quantity =>
        set (register.register name quantity)
        return (Symbol.slot register.quantities.length).code

end VariableRegister

namespace VariableTable

variable {terms : TermTable} {resolver : Resolver} {vars : VariableTable}

/-- The register that the variables of a table lead to, registered in order. -/
def toRegister (vars : VariableTable) : VariableRegister :=
  vars.registrations.foldl (fun register registration =>
    register.register registration.spelling registration.quantity) .empty

/-- One more registration does the same to both structures. -/
theorem toRegister_register (vars : VariableTable) (name : String) (quantity : Variable) :
    (vars.register name quantity).toRegister = vars.toRegister.register name quantity :=
  List.foldl_append

/-- The vector of the register has the variables in the order of their slots. -/
theorem quantities_toRegister (vars : VariableTable) :
    vars.toRegister.quantities = vars.registrations.map Registration.quantity := by
  obtain ⟨registrations⟩ := vars
  induction registrations using List.reverseRecOn with
  | nil => rfl
  | append_singleton earlier last ih =>
      have next := toRegister_register ⟨earlier⟩ last.spelling last.quantity
      change toRegister ⟨earlier ++ [last]⟩ = _ at next
      rw [next, VariableRegister.register, ih, List.map_append]
      rfl

/-- The vector of the register is as long as the table. -/
theorem length_quantities (vars : VariableTable) :
    vars.toRegister.quantities.length = vars.size := by
  rw [quantities_toRegister, List.length_map, size]

/-- The variable in a slot is the one at its place in the register. -/
theorem atSlot?_eq (vars : VariableTable) (slot : Nat) :
    vars.atSlot? slot = vars.toRegister.quantities[slot]? := by
  rw [atSlot?, quantities_toRegister, List.getElem?_map]

/-- Slots and names stand for each other, slot by slot under the slot's code, and no name is that
of a term. The table answers what the vector of variables and the map of codes answer. -/
structure Indexed (terms : TermTable) (vars : VariableTable) : Prop where
  slots : ∀ slot < vars.size, ∃! name, vars.codeOf? name = some (Symbol.slot slot).code
  codes : ∀ name code, vars.codeOf? name = some code →
    ∃ slot < vars.size, code = (Symbol.slot slot).code
  apart : ∀ name code, vars.codeOf? name = some code → name ∉ terms.names
  atSlot? : ∀ slot, vars.atSlot? slot = vars.toRegister.quantities[slot]?
  codeOf? : ∀ name, vars.codeOf? name = vars.toRegister.codes.get? name

/-- Each variable is what the resolver finds under its spelling, which is no term, and no spelling
occurs twice. -/
structure FoundBy (terms : TermTable) (resolver : Resolver) (vars : VariableTable) : Prop where
  distinct : (vars.registrations.map Registration.spelling).Nodup
  matched : ∀ registration ∈ vars.registrations,
    terms.idOf? registration.spelling = none ∧
      resolver terms registration.spelling = some registration.quantity

/-- The empty table is found by any resolver. -/
theorem foundBy_empty (terms : TermTable) (resolver : Resolver) :
    FoundBy terms resolver ∅ where
  distinct := List.nodup_nil
  matched := by
    intro registration member
    cases member

/-- A name has no code just if it is not registered. -/
theorem codeOf?_eq_none_iff {name : String} :
    vars.codeOf? name = none ↔ name ∉ vars.registrations.map Registration.spelling := by
  rw [codeOf?, Option.map_eq_none_iff, slotOf?, List.findIdx?_eq_none_iff]
  simp

/-- A new variable gets the code of the next slot. -/
theorem codeOf?_register_self {name : String} (fresh : vars.codeOf? name = none)
    (quantity : Variable) :
    (vars.register name quantity).codeOf? name = some (Symbol.slot vars.size).code := by
  have absent : vars.registrations.findIdx? (fun registration => registration.spelling == name) =
      none := Option.map_eq_none_iff.1 fresh
  rw [codeOf?, slotOf?, VariableTable.register, List.findIdx?_append, absent]
  simp [size]

/-- A new variable leaves the codes of other names. -/
theorem codeOf?_register_of_ne {name other : String} (apart : other ≠ name)
    (quantity : Variable) : (vars.register name quantity).codeOf? other = vars.codeOf? other := by
  rw [codeOf?, slotOf?, VariableTable.register, List.findIdx?_append]
  simp [apart.symm, codeOf?, slotOf?]

/-- Where no spelling occurs twice, the map of codes has the code of each name. -/
theorem codeOf?_eq_get? {vars : VariableTable}
    (distinct : (vars.registrations.map Registration.spelling).Nodup) (name : String) :
    vars.codeOf? name = vars.toRegister.codes.get? name := by
  obtain ⟨registrations⟩ := vars
  induction registrations using List.reverseRecOn with
  | nil => rfl
  | append_singleton earlier last ih =>
      rw [List.map_append, List.nodup_append] at distinct
      obtain ⟨distinctEarlier, -, apart⟩ := distinct
      have known := ih distinctEarlier
      let table : VariableTable := ⟨earlier⟩
      change (table.register last.spelling last.quantity).codeOf? name =
        (table.register last.spelling last.quantity).toRegister.codes.get? name
      rw [toRegister_register, VariableRegister.register, NameMap.get?_insert, length_quantities]
      split
      · next same =>
        subst same
        refine codeOf?_register_self (codeOf?_eq_none_iff.2 fun member => ?_) _
        exact apart _ member _ List.mem_cons_self rfl
      · next other => exact (codeOf?_register_of_ne other _).trans known

/-- A name compiles alike with the table and with the register that it leads to. -/
theorem agree_compileName (scope : Scope) (definition name : String) {compiled : Compiled}
    (distinct : (compiled.vars.registrations.map Registration.spelling).Nodup) :
    Agree (fun next register => register = next.vars.toRegister)
      (scope.compileName definition name compiled)
      (VariableRegister.compileName scope definition name compiled.vars.toRegister) := by
  unfold Scope.compileName VariableRegister.compileName
  cases scope.terms.idOf? name with
  | some id => exact .ok rfl
  | none =>
      simp only [get_bind_apply, ← codeOf?_eq_get? distinct]
      cases compiled.vars.codeOf? name with
      | some code => exact .ok rfl
      | none =>
          cases scope.resolver scope.terms name with
          | none => exact .error rfl
          | some quantity =>
              dsimp only
              rw [length_quantities]
              exact .ok (toRegister_register compiled.vars name quantity).symm

namespace FoundBy

/-- A variable that the resolver finds under a new name may be registered. -/
theorem register (found : vars.FoundBy terms resolver) {name : String} {quantity : Variable}
    (notTerm : terms.idOf? name = none) (fresh : vars.codeOf? name = none)
    (matched : resolver terms name = some quantity) :
    (vars.register name quantity).FoundBy terms resolver where
  distinct := by
    have absent := codeOf?_eq_none_iff.1 fresh
    change (List.map Registration.spelling
      (vars.registrations ++ [(⟨name, quantity⟩ : Registration)])).Nodup
    rw [List.map_append, List.map_singleton, List.nodup_append]
    refine ⟨found.distinct, List.pairwise_singleton _ _, fun first left second right same => ?_⟩
    obtain rfl := List.mem_singleton.1 right
    subst same
    exact absent left
  matched := by
    intro registration member
    rcases List.mem_append.1 member with known | added
    · exact found.matched registration known
    · obtain rfl := List.mem_singleton.1 added
      exact ⟨notTerm, matched⟩

/-- With each spelling there once, the code of a name is that of its slot. -/
theorem codeOf?_eq_some_iff (found : vars.FoundBy terms resolver) {name : String} {code : Int} :
    vars.codeOf? name = some code ↔ ∃ slot quantity,
      vars.registrations[slot]? = some ⟨name, quantity⟩ ∧ code = (Symbol.slot slot).code := by
  rw [codeOf?, Option.map_eq_some_iff]
  constructor
  · rintro ⟨slot, position, rfl⟩
    obtain ⟨quantity, registered⟩ := registered_of_slotOf? position
    exact ⟨slot, quantity, registered, rfl⟩
  · rintro ⟨slot, quantity, registered, rfl⟩
    refine ⟨slot, ?_, rfl⟩
    obtain ⟨bound, here⟩ := List.getElem?_eq_some_iff.1 registered
    refine List.findIdx?_eq_some_iff_getElem.2 ⟨bound, by simp [here], fun earlier before => ?_⟩
    have distinct := List.pairwise_iff_getElem.1 found.distinct earlier slot
      (by rw [List.length_map]; omega) (by rwa [List.length_map]) before
    rw [List.getElem_map, List.getElem_map, here] at distinct
    simpa using distinct

/-- Variables that are found are indexed by their names. -/
theorem indexed (found : vars.FoundBy terms resolver) : vars.Indexed terms where
  slots := by
    intro slot bound
    have registered : vars.registrations[slot]? = some vars.registrations[slot] :=
      List.getElem?_eq_getElem bound
    refine ⟨vars.registrations[slot].spelling, ?_, fun name known => ?_⟩
    · exact found.codeOf?_eq_some_iff.2 ⟨slot, _, registered, rfl⟩
    · obtain ⟨other, quantity, atOther, same⟩ := found.codeOf?_eq_some_iff.1 known
      have decoded := congrArg Symbol.ofCode? same
      rw [Symbol.ofCode?_code, Symbol.ofCode?_code] at decoded
      cases decoded
      rw [registered] at atOther
      rw [Option.some.inj atOther]
  codes := by
    intro name code known
    obtain ⟨slot, quantity, registered, same⟩ := found.codeOf?_eq_some_iff.1 known
    exact ⟨slot, (List.getElem?_eq_some_iff.1 registered).1, same⟩
  apart := by
    intro name code known
    obtain ⟨slot, quantity, registered, _⟩ := found.codeOf?_eq_some_iff.1 known
    obtain ⟨notTerm, _⟩ := found.matched _ (List.mem_of_getElem? registered)
    exact TermTable.idOf?_eq_none_iff.1 notTerm
  atSlot? := vars.atSlot?_eq
  codeOf? := fun _ => codeOf?_eq_get? found.distinct _

end FoundBy

end VariableTable

namespace Scope

/-- Compiling keeps the variables that there are. -/
theorem retains_precedes (scope : Scope) (expanding : List String) (vars : VariableTable) :
    scope.Retains expanding fun compiled => vars.Precedes compiled.vars where
  register := fun compiled name quantity _ _ _ before =>
    before.trans (VariableTable.precedes_register compiled.vars name quantity)
  define := fun _ _ _ _ _ before => before

/-- Compiling registers what the scope finds. -/
theorem retains_foundBy (scope : Scope) (expanding : List String) :
    scope.Retains expanding fun compiled =>
      compiled.vars.FoundBy scope.terms scope.resolver where
  register := fun _ _ _ notTerm fresh matched found => found.register notTerm fresh matched
  define := fun _ _ _ _ _ found => found

end Scope

namespace Manager

/-- A property of managers that compiling another clause keeps, also when it fails. -/
def KeptByCompiling (keep : Manager → Prop) : Prop :=
  ∀ name clause, Keeps (compile name clause) keep

/-- What compiling clauses keeps, compiling texts keeps. -/
theorem KeptByCompiling.compileText {keep : Manager → Prop} (kept : KeptByCompiling keep)
    (name text : String) : Keeps (Manager.compileText name text) keep := by
  refine keeps_get_bind fun later => ?_
  cases later.macros.parse name text with
  | ok clause => exact kept name clause
  | error error => exact keeps_throw error

/-- Compiling leaves a manager with other variables, and with what compiling keeps of them. -/
theorem exists_ending_compile {manager : Manager} {name : String} {keep : Compiled → Prop}
    (retains : manager.scope.Retains [name] keep) (kept : keep ⟨manager.vars, manager.definitions⟩)
    (clause : Clause) : ∃ vars, ending (compile name clause) manager = { manager with vars } ∧
      keep ⟨vars, manager.definitions⟩ := by
  have keeps := (retains.and (Scope.retains_definitions rfl manager.definitions)).compileClause
    clause
  unfold ending compile
  cases ran : manager.scope.compileClause name clause ⟨manager.vars, manager.definitions⟩ with
  | ok definition compiled =>
      obtain ⟨keptNext, unchanged⟩ := keeps.ok ran ⟨kept, rfl⟩
      exact ⟨compiled.vars, by dsimp only; rw [unchanged], by rw [← unchanged]; exact keptNext⟩
  | error error compiled =>
      obtain ⟨keptNext, unchanged⟩ := keeps.error ran ⟨kept, rfl⟩
      exact ⟨compiled.vars, by dsimp only; rw [unchanged], by rw [← unchanged]; exact keptNext⟩

/-- Compiling a clause only makes a manager grow. -/
theorem kept_growsTo (manager : Manager) : KeptByCompiling manager.GrowsTo := by
  rintro name clause later ⟨same, before⟩
  obtain ⟨vars, ended, beforeNext⟩ :=
    exists_ending_compile (later.scope.retains_precedes [name] later.vars) (.refl _) clause
  rw [ended]
  exact ⟨by rw [same], before.trans beforeNext⟩

/-- The later manager has found more variables, as the earlier one would find them. -/
def Extends (manager later : Manager) : Prop :=
  manager.GrowsTo later ∧ later.vars.FoundBy manager.terms manager.resolver

/-- Compiling a clause only extends a manager. -/
theorem kept_extends (manager : Manager) : KeptByCompiling manager.Extends := by
  rintro name clause later ⟨grown, found⟩
  have terms : later.terms = manager.terms := by rw [grown.1]
  have resolver : later.resolver = manager.resolver := by rw [grown.1]
  rw [← terms, ← resolver] at found
  obtain ⟨vars, ended, foundNext⟩ :=
    exists_ending_compile (later.scope.retains_foundBy [name]) found clause
  refine ⟨manager.kept_growsTo name clause later grown, ?_⟩
  rw [ended, ← terms, ← resolver]
  exact foundNext

/-- Compiling a text only extends a manager. -/
theorem keeps_compileText (manager : Manager) (name text : String) :
    Keeps (compileText name text) manager.Extends :=
  manager.kept_extends.compileText name text

end Manager

namespace ItemTemplate

/-- A lookup changes nothing. -/
theorem keeps_lookUp {α : Type} (find : Manager → Except Error α) (keep : Manager → Prop) :
    Keeps (create.lookUp find) keep := by
  refine keeps_get_bind fun later => ?_
  cases find later with
  | ok found => exact keeps_pure found
  | error error => exact keeps_throw error

end ItemTemplate

/-- Making an item does nothing to the manager but compile its guards. -/
theorem Manager.KeptByCompiling.create {keep : Manager → Prop} (kept : KeptByCompiling keep)
    (template : ItemTemplate) : Keeps template.create keep := by
  induction template with
  | bool name term | single name effect | multi name effects =>
      rw [ItemTemplate.create]
      exact (ItemTemplate.keeps_lookUp _ _).bind fun found => keeps_pure _
  | capped name effects cap =>
      rw [ItemTemplate.create]
      refine (ItemTemplate.keeps_lookUp _ _).bind fun found => ?_
      exact (ItemTemplate.keeps_lookUp _ _).bind fun least => keeps_pure _
  | branched name guard whenTrue whenFalse ihTrue ihFalse =>
      have branch (branch : Option ItemTemplate)
          (each : ∀ template, branch = some template → Keeps template.create keep) :
          Keeps (ItemTemplate.createBranch branch) keep := by
        cases branch with
        | none => exact keeps_pure none
        | some template => exact (each template rfl).map some
      rw [ItemTemplate.create_branched]
      refine (kept.compileText name guard).bind fun definition => ?_
      refine (branch whenTrue ihTrue).bind fun ofTrue => ?_
      exact (branch whenFalse ihFalse).bind fun ofFalse => keeps_pure _
  | empty name =>
      rw [ItemTemplate.create]
      exact keeps_pure _

/-- Creating an item only extends a manager. -/
theorem ItemTemplate.keeps_create (manager : Manager) (template : ItemTemplate) :
    Keeps template.create manager.Extends :=
  manager.kept_extends.create template

namespace Builder

/-- Making items changes nothing but variables and items. -/
theorem exists_addItems_eq {manager next : Manager} {templates : List ItemTemplate}
    (ran : addItems manager templates = .ok next) :
    ∃ vars items, next = { manager with vars, items } := by
  induction templates generalizing manager with
  | nil =>
      cases ran
      exact ⟨next.vars, next.items, rfl⟩
  | cons template rest ih =>
      rw [addItems] at ran
      split at ran
      · next item middle created =>
        have grown := (manager.kept_growsTo.create template).ok created (.refl _)
        obtain ⟨vars, items, rfl⟩ := ih ran
        rw [grown.1]
        exact ⟨vars, items, rfl⟩
      · cases ran

/-- Items are made one after another, and each finds its variables on top of those before it. -/
theorem foundBy_addItems {terms : TermTable} {resolver : Resolver} {manager next : Manager}
    {templates : List ItemTemplate} (sameTerms : manager.terms = terms)
    (sameResolver : manager.resolver = resolver) (found : manager.vars.FoundBy terms resolver)
    (ran : addItems manager templates = .ok next) : next.vars.FoundBy terms resolver := by
  induction templates generalizing manager with
  | nil =>
      cases ran
      exact found
  | cons template rest ih =>
      rw [addItems] at ran
      split at ran
      · next item middle created =>
        subst sameTerms sameResolver
        obtain ⟨⟨grown, _⟩, foundMiddle⟩ :=
          (ItemTemplate.keeps_create manager template).ok created ⟨.refl _, found⟩
        have terms : middle.terms = manager.terms := by rw [grown]
        have resolver : middle.resolver = manager.resolver := by rw [grown]
        refine ih ?_ ?_ ?_ ran
        · exact terms
        · exact resolver
        · exact foundMiddle
      · cases ran

/-- Whatever a manager is built from, its variables are those that the builder's resolver finds. -/
theorem foundBy_of_build {builder : Builder} {manager : Manager}
    (built : builder.build = .ok manager) :
    manager.vars.FoundBy builder.terms builder.resolver := by
  obtain ⟨compiled, waypointed, transitioned, itemed, compiledAll, addedWaypoints,
    addedTransitions, addedItems, rfl⟩ := build_eq_ok_iff.1 built
  obtain ⟨waypoints, rfl, _, _⟩ := addWaypoints_ok addedWaypoints
  obtain ⟨transitions, rfl, _, _⟩ := addTransitions_ok addedTransitions
  have keeps := (builder.scope.retains_foundBy []).compileAll fun entry member =>
    NameMap.contains_iff.2 ⟨entry.2, NameMap.get?_of_mem member⟩
  have found := keeps.ok compiledAll (VariableTable.foundBy_empty _ _)
  have foundItemed : itemed.vars.FoundBy builder.terms builder.resolver := by
    refine foundBy_addItems ?_ ?_ ?_ addedItems
    · rfl
    · rfl
    · exact found
  exact foundItemed

end Builder

end Randomizer
