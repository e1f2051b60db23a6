import Randomizer.Proofs.Logic.Lineage
import Randomizer.Proofs.Logic.Recompilation

/-!
Definitions written out and compiled by the manager that they belong to. The text is read with the
macros and terms that the manager ended up with, so it says the same unless one of them has taken a
name or an amount that is in the text.
-/

namespace Randomizer

namespace Manager

/-- The amounts that a program reads, as they are written. -/
def amountsOf (manager : Manager) (program : Program) : List String :=
  program.filterMap fun code => (manager.vars.atCode? code).map Variable.name

/-- What a definition is written as is not taken for something else: no bare name in it is the name
of a macro, and no amount that it reads is written like a term. -/
structure WritesClearly (manager : Manager) (definition : Definition) : Prop where
  macros : ∀ name, .bare name ∈ (manager.clauseOf definition).tokens →
    manager.macros.contains name = false
  amounts : ∀ amount ∈ manager.amountsOf definition.program, amount ∉ manager.terms.names

variable {manager : Manager} {scope : Scope}

/-- A name that is not the spelling of another amount is clear. -/
theorem clearOperand_of_names {name : String} {operand : Operand} {program : Program}
    (amounts : ∀ amount ∈ manager.amountsOf program, amount ∉ manager.terms.names)
    (reads : operand.symbol.code ∈ program) (names : scope.Names manager.vars name operand) :
    manager.ClearOperand operand := by
  cases names with
  | term found => trivial
  | slot notTerm matched registered =>
      rw [ClearOperand, operandText_slot registered]
      refine amounts _ (List.mem_filterMap.2 ⟨_, reads, ?_⟩)
      simp only [VariableTable.atCode?, Operand.symbol, Symbol.ofCode?_code, VariableTable.atSlot?,
        registered, Option.map_some]

/-- When the text of a tree is clear, so is every atom. -/
theorem all_clear {tree : Tree Primitive} (named : tree.All (Primitive.Named scope manager.vars))
    (macros : ∀ name, .bare name ∈ (tree.map manager.tokenOf).tokens →
      manager.macros.contains name = false)
    (amounts : ∀ amount ∈ manager.amountsOf tree.program, amount ∉ manager.terms.names) :
    tree.All manager.Clear := by
  induction tree with
  | atom primitive =>
      change ∀ amount ∈ manager.amountsOf primitive.program, _ at amounts
      cases primitive with
      | constant value => trivial
      | operand content =>
          obtain ⟨name, names, _, _⟩ := named
          exact ⟨clearOperand_of_names amounts (by simp [Primitive.program]) names,
            macros _ (by simp [Tree.map, tokenOf])⟩
      | comparison kind left right =>
          obtain ⟨⟨first, namesLeft, _⟩, second, namesRight, _⟩ := named
          exact ⟨clearOperand_of_names amounts (by simp [Primitive.program]) namesLeft,
            clearOperand_of_names amounts (by simp [Primitive.program]) namesRight⟩
  | join kind left right ihLeft ihRight =>
      have program : (Tree.join kind left right).program =
          left.program ++ right.program ++ [kind.operator.code] := rfl
      rw [program, amountsOf, List.filterMap_append, List.filterMap_append] at amounts
      rw [Tree.map, Tree.tokens_join] at macros
      exact ⟨ihLeft named.1 (fun name member => macros name (by simp [member]))
          (fun amount member => amounts amount
            (List.mem_append_left _ (List.mem_append_left _ member))),
        ihRight named.2 (fun name member => macros name (by simp [member]))
          (fun amount member => amounts amount
            (List.mem_append_left _ (List.mem_append_right _ member)))⟩

/-- A clear definition from text writes a tree that comes back. -/
theorem exists_recovers (readable : scope.Readable) (resolver : scope.resolver = Resolver.integers)
    (terms : manager.terms = scope.terms) {definition : Definition}
    (ofText : definition.OfText scope manager.vars) (clear : manager.WritesClearly definition) :
    ∃ tree : Tree Primitive, manager.Recovers scope tree ∧ definition.program = tree.program := by
  obtain ⟨clause, ofClause, expands⟩ := ofText
  obtain ⟨tree, writes, named⟩ := expands.named readable ofClause
  have macros := clear.macros
  have amounts := clear.amounts
  rw [manager.clauseOf_program writes] at macros
  rw [writes] at amounts
  exact ⟨tree, ⟨resolver, terms, named, all_clear named macros amounts⟩, writes⟩

end Manager

namespace Stage

/-- A manager and what it has handed out, after work in which it was not opened again. -/
inductive Serves (manager : Manager) : Manager → List Definition → List Item → Prop where
  | start : Serves manager manager [] []
  | next {current later : Manager} {definitions laterDefinitions : List Definition}
      {items laterItems : List Item} : Serves manager current definitions items →
      Next (.serving current definitions items) (.serving later laterDefinitions laterItems) →
      Serves manager later laterDefinitions laterItems

/-- A manager that serves stands on the clauses it was built from. -/
theorem Serves.stands {builder : Builder} {manager later : Manager} {definitions : List Definition}
    {items : List Item} (serves : Serves manager later definitions items)
    (stands : Stands builder manager [] []) : Stands builder later definitions items := by
  induction serves with
  | start => exact stands
  | next _ step ih => exact ih.next step

end Stage

namespace Builder

open Stage

/-- Whatever was ingested and, once it was built, compiled or made, also in vain: the text of a
clear definition, one of the manager's or one that it has handed out, is compiled by the manager,
and the result holds when the definition does. -/
theorem exists_restatement {builder : Builder} (ingested : builder.Ingested)
    (resolver : builder.resolver = Resolver.integers) {manager : Manager}
    (built : builder.build = .ok manager) {later : Manager} {definitions : List Definition}
    {items : List Item} (serves : Serves manager later definitions items) {definition : Definition}
    (carries : Carries later definitions items definition.program)
    (clear : later.WritesClearly definition) :
    ∃ again next, Manager.compileText definition.name (later.textOf definition) later =
        .ok again next ∧
      ∀ reading, again.holds next.vars reading = definition.holds next.vars reading ∧
        definition.holds next.vars reading = definition.holds later.vars reading := by
  have readable : builder.scope.Readable := ⟨ingested.readable.1, ingested.readable.2⟩
  have stands := serves.stands (stands_of_build readable.formed ingested.prefabs built)
  obtain ⟨clause, ofText, expands⟩ := stands.exists_source carries
  obtain ⟨tree, recovers, writes⟩ := Manager.exists_recovers readable resolver
    stands.builds.terms ⟨clause, ofText readable.sources, expands⟩ clear
  obtain ⟨again, next, ran, holds⟩ := recovers.exists_compileText rfl rfl readable.formed
    stands.builds.sound rfl writes
  obtain ⟨_, _, _, grows⟩ := Manager.compileText_ok readable.formed stands.builds.sound ran
  have unchanged (reading : Reading) :
      definition.holds next.vars reading = definition.holds later.vars reading := by
    have means := (expands.mono grows.2).means definition.name reading
    rw [Definition.holds, Definition.holds, Definition.value, Definition.value,
      means.unique (expands.means definition.name reading)]
  refine ⟨again, next, ran, fun reading => ⟨?_, unchanged reading⟩⟩
  rw [holds next.vars (.refl _) reading, unchanged reading]

/-- A location that mentions a term, and a macro of the term's name that comes after it. -/
def shadowed : Builder := ofDocuments [
  .terms ["Open", "Shut"],
  .locations [⟨"Gate", "Open"⟩, ⟨"Door", "Shut | Shut > 1"⟩],
  .macros (.ofList [("Open", "Shut")])]

/-- The gate and the door compile before and after the macro takes its name. -/
theorem shadowed_builds : ∃ manager, shadowed.build = .ok manager ∧
    manager.definitions.get? "Gate" = some ⟨"Gate", [0]⟩ ∧
    manager.definitions.get? "Door" = some ⟨"Door", [1, 1, -100, -7, -2]⟩ := by
  have definitions : (shadowed.build.map fun manager =>
      (manager.definitions.get? "Gate", manager.definitions.get? "Door")) =
        .ok (some ⟨"Gate", [0]⟩, some ⟨"Door", [1, 1, -100, -7, -2]⟩) := by cbv
  obtain ⟨manager, built, same⟩ := Except.map_eq_ok_iff.1 definitions
  exact ⟨manager, built, congrArg Prod.fst same, congrArg Prod.snd same⟩

/-- The door means the same when its text is compiled again. -/
theorem exists_restatement_shadowed :
    ∃ manager again next, shadowed.build = .ok manager ∧
      Manager.compileText "Door" (manager.textOf ⟨"Door", [1, 1, -100, -7, -2]⟩) manager =
        .ok again next ∧
      ∀ reading, again.holds next.vars reading =
        Definition.holds ⟨"Door", [1, 1, -100, -7, -2]⟩ next.vars reading := by
  obtain ⟨manager, built, _, found⟩ := shadowed_builds
  have outline : (shadowed.build.map fun manager =>
      (manager.macros.contains "Shut", manager.terms.names,
        (manager.clauseOf ⟨"Door", [1, 1, -100, -7, -2]⟩).tokens,
        manager.amountsOf [1, 1, -100, -7, -2])) =
      .ok (false, ["Open", "Shut"],
        [.bare "Shut", .comparison .greater "Shut" "1", .connective .or], ["1"]) := by cbv
  rw [built] at outline
  injection outline with outline
  simp only [Prod.mk.injEq] at outline
  obtain ⟨notMacro, terms, tokens, amounts⟩ := outline
  have clear : manager.WritesClearly ⟨"Door", [1, 1, -100, -7, -2]⟩ := by
    constructor
    · rw [tokens]
      intro name member
      obtain rfl : name = "Shut" := by simpa using member
      exact notMacro
    · rw [amounts, terms]
      decide
  obtain ⟨again, next, ran, holds⟩ := exists_restatement (ingested_ofDocuments _) (by cbv) built
    .start (.definition found) clear
  exact ⟨manager, again, next, built, ran, fun reading => (holds reading).1⟩

/-- The text of the gate is the name of its term, which is the macro's name by then. -/
theorem restated_gate_differs : shadowed.Ingested ∧ shadowed.resolver = Resolver.integers ∧
    ∃ manager definition again next reading, shadowed.build = .ok manager ∧
      manager.definitions.get? "Gate" = some definition ∧
      Manager.compileText "Gate" (manager.textOf definition) manager = .ok again next ∧
      again.holds next.vars reading ≠ definition.holds next.vars reading := by
  refine ⟨ingested_ofDocuments _, by cbv, ?_⟩
  obtain ⟨manager, built, found, _⟩ := shadowed_builds
  have compiled : (shadowed.build.map fun manager =>
      (Manager.compileText "Gate" (manager.textOf ⟨"Gate", [0]⟩)).run' manager) =
        .ok (some ⟨"Gate", [1]⟩) := by cbv
  rw [built] at compiled
  obtain ⟨next, ran⟩ := EStateM.run'_eq_some_iff.1 (Except.ok.inj compiled)
  refine ⟨manager, ⟨"Gate", [0]⟩, ⟨"Gate", [1]⟩, next, fun id => if id.index = 0 then 1 else 0,
    built, found, ran, ?_⟩
  change ¬ (false = true)
  decide

end Builder

end Randomizer
