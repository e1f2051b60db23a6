import Randomizer.Proofs.Logic.Registration

namespace Randomizer

open Randomizer.EStateM

namespace Program

/-- A program that reads the slots below a bound and no others. -/
def ReadsBelow (bound : Nat) (program : Program) : Prop :=
  ∀ code ∈ program, ∀ slot, Symbol.ofCode? code = some (.slot slot) → slot < bound

/-- Slots that a program does not read have no part in its value. -/
theorem ReadsBelow.run_eq {bound : Nat} {program : Program} (reads : program.ReadsBelow bound)
    {inputs later : Inputs} (terms : later.term = inputs.term)
    (slots : ∀ slot < bound, later.slot slot = inputs.slot slot) (stack : List Int) :
    run later program stack = run inputs program stack := by
  induction program generalizing stack with
  | nil => rfl
  | cons code rest ih =>
      have same : step later stack code = step inputs stack code := by
        have below := reads code (by simp)
        unfold step
        cases decoded : Symbol.ofCode? code with
        | none => rfl
        | some symbol =>
            cases symbol with
            | term id => rw [terms]
            | slot slot =>
                dsimp only
                rw [slots slot (below slot decoded)]
            | operator kind => rfl
      have readsRest : ReadsBelow bound rest := fun other member => reads other (by simp [member])
      change run later rest (step later stack code) = run inputs rest (step inputs stack code)
      rw [same]
      exact ih readsRest _

/-- A program that reads slots below a bound has the same value where those slots do. -/
theorem ReadsBelow.value_eq {bound : Nat} {program : Program} (reads : program.ReadsBelow bound)
    {inputs later : Inputs} (terms : later.term = inputs.term)
    (slots : ∀ slot < bound, later.slot slot = inputs.slot slot) :
    program.value later = program.value inputs := by
  rw [value, value, reads.run_eq terms slots]

end Program

namespace VariableTable

variable {table later : VariableTable}

/-- A name has its slot for good. -/
theorem Precedes.codeOf?_eq (before : table.Precedes later) {name : String} {code : Int}
    (known : table.codeOf? name = some code) : later.codeOf? name = some code := by
  obtain ⟨added, same⟩ := before
  obtain ⟨slot, found, rfl⟩ := Option.map_eq_some_iff.1 known
  have foundLater : later.slotOf? name = some slot := by
    rw [slotOf?] at found ⊢
    rw [← same, List.findIdx?_append, found]
    rfl
  rw [codeOf?, foundLater]
  rfl

/-- What is registered later does not change the slots there are. -/
theorem Precedes.value_eq (before : table.Precedes later) {slot : Nat} (bound : slot < table.size)
    (requester : String) (reading : Reading) :
    later.value requester reading slot = table.value requester reading slot := by
  have registered : table.registrations[slot]? = some table.registrations[slot] :=
    List.getElem?_eq_getElem bound
  rw [value_of_registered (before.getElem? registered), value_of_registered registered]

/-- A definition has the same value with more variables as with those that it reads. -/
theorem Precedes.definition_value_eq (before : table.Precedes later) {definition : Definition}
    (reads : definition.program.ReadsBelow table.size) (reading : Reading) :
    definition.value later reading = definition.value table reading := by
  rw [Definition.value, Definition.value]
  apply reads.value_eq
  · rfl
  · exact fun slot bound => before.value_eq bound definition.name reading

end VariableTable

namespace Manager

/-- The later manager differs from the earlier one by variables in new slots, and no definition
whose variables the earlier one has can tell them apart. -/
structure PersistsIn (manager later : Manager) : Prop where
  terms : later.terms = manager.terms
  macros : later.macros = manager.macros
  resolver : later.resolver = manager.resolver
  definitions : later.definitions = manager.definitions
  items : later.items = manager.items
  transitions : later.transitions = manager.transitions
  waypoints : later.waypoints = manager.waypoints
  vars : ∃ added, later.vars.registrations = manager.vars.registrations ++ added
  codes : ∀ name code, manager.vars.codeOf? name = some code → later.vars.codeOf? name = some code
  values : ∀ definition : Definition, definition.program.ReadsBelow manager.vars.size →
    ∀ reading, definition.value later.vars reading = definition.value manager.vars reading

/-- What a manager grows from persists in it. -/
theorem GrowsTo.persistsIn {manager later : Manager} (grows : manager.GrowsTo later) :
    manager.PersistsIn later where
  terms := by rw [grows.1]
  macros := by rw [grows.1]
  resolver := by rw [grows.1]
  definitions := by rw [grows.1]
  items := by rw [grows.1]
  transitions := by rw [grows.1]
  waypoints := by rw [grows.1]
  vars := by
    obtain ⟨added, same⟩ := grows.2
    exact ⟨added, same.symm⟩
  codes := fun _ _ => grows.2.codeOf?_eq
  values := fun _ reads => grows.2.definition_value_eq reads

/-- Compiling text, compiling a clause and making an item leave all that there was in place,
whatever they are given and wherever they stop. -/
theorem persistsIn_ending (manager : Manager) :
    (∀ name text, manager.PersistsIn (ending (compileText name text) manager)) ∧
    (∀ name clause, manager.PersistsIn (ending (compile name clause) manager)) ∧
    ∀ template : ItemTemplate, manager.PersistsIn (ending template.create manager) := by
  have kept := manager.kept_growsTo
  have start := GrowsTo.refl manager
  refine ⟨fun name text => ?_, fun name clause => ?_, fun template => ?_⟩
  · exact (kept.compileText name text manager start).persistsIn
  · exact (kept name clause manager start).persistsIn
  · exact (kept.create template manager start).persistsIn

/-- The amount keeps the slot that it got before the name after it was not found. -/
example : (ending (compile "gate" ⟨[.bare "5", .bare "key"]⟩)
    ⟨∅, ∅, .integers, ∅, ∅, ∅, ∅, ∅⟩).vars.codeOf? "5" = some (Symbol.slot 0).code := by cbv

end Manager

end Randomizer
