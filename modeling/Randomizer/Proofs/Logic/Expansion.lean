import Randomizer.Proofs.Logic.Meaning
import Randomizer.Proofs.Logic.Primitive
import Randomizer.Proofs.NameMap

namespace Randomizer

namespace VariableTable

/-- The later table keeps every slot of the earlier one. -/
def Precedes (table later : VariableTable) : Prop := table.registrations <+: later.registrations

theorem Precedes.refl (table : VariableTable) : table.Precedes table := List.prefix_rfl

theorem Precedes.trans {first second third : VariableTable} (before : first.Precedes second)
    (after : second.Precedes third) : first.Precedes third :=
  List.IsPrefix.trans before after

/-- A variable that is registered comes after those there are. -/
theorem precedes_register (table : VariableTable) (spelling : String) (quantity : Variable) :
    table.Precedes (table.register spelling quantity) := List.prefix_append _ _

/-- Variables that there were keep their slots. -/
theorem Precedes.getElem? {table later : VariableTable} (before : table.Precedes later)
    {index : Nat} {registration : Registration}
    (registered : table.registrations[index]? = some registration) :
    later.registrations[index]? = some registration := by
  obtain ⟨tail, same⟩ := before
  obtain ⟨bound, _⟩ := List.getElem?_eq_some_iff.1 registered
  rw [← same, List.getElem?_append_left bound, registered]

/-- A spelling with a slot is registered there. -/
theorem registered_of_slotOf? {table : VariableTable} {spelling : String} {index : Nat}
    (found : table.slotOf? spelling = some index) :
    ∃ quantity, table.registrations[index]? = some ⟨spelling, quantity⟩ := by
  obtain ⟨bound, same, _⟩ := List.findIdx?_eq_some_iff_getElem.1 found
  refine ⟨table.registrations[index].quantity, ?_⟩
  rw [List.getElem?_eq_getElem bound]
  simp only [beq_iff_eq] at same
  rw [← same]

/-- The value of a slot is that of the variable registered there. -/
theorem value_of_registered {table : VariableTable} {index : Nat} {registration : Registration}
    (registered : table.registrations[index]? = some registration) (requester : String)
    (reading : Reading) :
    table.value requester reading index = registration.quantity.value requester reading := by
  rw [value, atSlot?, registered]
  rfl

end VariableTable

/-- A name has a term just if it is listed. -/
theorem TermTable.idOf?_eq_none_iff {table : TermTable} {name : String} :
    table.idOf? name = none ↔ name ∉ table.names := by
  rw [idOf?, Option.map_eq_none_iff, List.idxOf?_eq_none_iff]

/-- A name with a term is listed. -/
theorem TermTable.mem_of_idOf? {table : TermTable} {name : String} {id : TermId}
    (found : table.idOf? name = some id) : name ∈ table.names := by
  have named := nameOf?_eq_some_iff.2 found
  exact List.mem_of_getElem? named

namespace Scope

/-- The operand that a name is replaced by. -/
inductive Names (scope : Scope) (vars : VariableTable) : String → Operand → Prop where
  | term {name : String} {id : TermId} : scope.terms.idOf? name = some id →
      Names scope vars name (.term id)
  | slot {name : String} {index : Nat} {quantity : Variable} : scope.terms.idOf? name = none →
      scope.resolver scope.terms name = some quantity →
      vars.registrations[index]? = some ⟨name, quantity⟩ →
      Names scope vars name (.slot index)

/-- What logic is replaced by, tree by tree. -/
inductive Expands (scope : Scope) (vars : VariableTable) : Tree Token → Tree Primitive → Prop where
  | bare {name : String} {operand : Operand} : scope.Names vars name operand →
      Expands scope vars (.atom (.bare name)) (.atom (.operand operand))
  | comparison {kind : Comparison} {left right : String} {first second : Operand} :
      scope.Names vars left first → scope.Names vars right second →
      Expands scope vars (.atom (.comparison kind left right))
        (.atom (.comparison kind first second))
  | constant (value : Bool) :
      Expands scope vars (.atom (.constant value)) (.atom (.constant value))
  | macroName {name : String} {clause : Clause} {tree : Tree Token} {compiled : Tree Primitive} :
      scope.macros.get? name = some clause → tree.tokens = clause.tokens →
      Expands scope vars tree compiled →
      Expands scope vars (.atom (.macroName name)) compiled
  | reference {target : String} {clause : Clause} {tree : Tree Token}
      {compiled : Tree Primitive} :
      scope.sources.get? target = some clause → tree.tokens = clause.tokens →
      Expands scope vars tree compiled →
      Expands scope vars (.atom (.reference target)) compiled
  | first {first second : Token} {compiled : Tree Primitive} : scope.AtomResolves first →
      Expands scope vars (.atom first) compiled →
      Expands scope vars (.atom (.fallback first second)) compiled
  | second {first second : Token} {compiled : Tree Primitive} : ¬ scope.AtomResolves first →
      Expands scope vars (.atom second) compiled →
      Expands scope vars (.atom (.fallback first second)) compiled
  | join {kind : Connective} {left right : Tree Token} {first second : Tree Primitive} :
      Expands scope vars left first → Expands scope vars right second →
      Expands scope vars (.join kind left right) (.join kind first second)

variable {scope : Scope} {vars later : VariableTable}

/-- A name keeps its operand when variables are added. -/
theorem Names.mono {name : String} {operand : Operand} (names : scope.Names vars name operand)
    (before : vars.Precedes later) : scope.Names later name operand := by
  cases names with
  | term found => exact .term found
  | slot notTerm found registered => exact .slot notTerm found (before.getElem? registered)

/-- Variables that are registered later change nothing. -/
theorem Expands.mono {tree : Tree Token} {compiled : Tree Primitive}
    (expands : scope.Expands vars tree compiled) (before : vars.Precedes later) :
    scope.Expands later tree compiled := by
  induction expands with
  | bare names => exact .bare (names.mono before)
  | comparison left right => exact .comparison (left.mono before) (right.mono before)
  | constant value => exact .constant value
  | macroName found written _ ih => exact .macroName found written ih
  | reference found written _ ih => exact .reference found written ih
  | first resolves _ ih => exact .first resolves ih
  | second stuck _ ih => exact .second stuck ih
  | join _ _ ihLeft ihRight => exact .join ihLeft ihRight

/-- The operand of a name has the value of the name. -/
theorem Names.nameValue? {name : String} {operand : Operand}
    (names : scope.Names vars name operand) (requester : String) (reading : Reading) :
    scope.nameValue? requester reading name =
      some (operand.value (vars.inputs requester reading)) := by
  cases names with
  | term found => simp only [Scope.nameValue?, found, Operand.value, VariableTable.inputs]
  | slot notTerm found registered =>
      simp only [Scope.nameValue?, notTerm, found, Option.map_some, Operand.value,
        VariableTable.inputs, VariableTable.value_of_registered registered]

/-- What logic is replaced by has its meaning, for every requester. -/
theorem Expands.means {tree : Tree Token} {compiled : Tree Primitive}
    (expands : scope.Expands vars tree compiled) (requester : String) (reading : Reading) :
    scope.Means requester reading tree
      (compiled.value (Primitive.value (vars.inputs requester reading))) := by
  induction expands with
  | bare names => exact .bare (names.nameValue? requester reading)
  | comparison left right =>
      exact .comparison (left.nameValue? requester reading) (right.nameValue? requester reading)
  | constant value => exact .constant value
  | macroName found written _ ih => exact .macroName found written ih
  | reference found written _ ih => exact .reference found written ih
  | first resolves _ ih => exact .first resolves ih
  | second stuck _ ih => exact .second stuck ih
  | join _ _ ihLeft ihRight => exact .join ihLeft ihRight

/-- A program that a clause is replaced by. -/
def ClauseExpands (scope : Scope) (vars : VariableTable) (clause : Clause) (program : Program) :
    Prop :=
  ∃ (tree : Tree Token) (compiled : Tree Primitive), tree.tokens = clause.tokens ∧
    scope.Expands vars tree compiled ∧ program = compiled.program

/-- What a clause is replaced by stays so when variables are added. -/
theorem ClauseExpands.mono {clause : Clause} {program : Program}
    (expands : scope.ClauseExpands vars clause program) (before : vars.Precedes later) :
    scope.ClauseExpands later clause program := by
  obtain ⟨tree, compiled, written, expandsTree, same⟩ := expands
  exact ⟨tree, compiled, written, expandsTree.mono before, same⟩

/-- A clause means the value of the program it is replaced by. -/
theorem ClauseExpands.means {clause : Clause} {program : Program}
    (expands : scope.ClauseExpands vars clause program) (requester : String)
    (reading : Reading) :
    scope.ClauseMeans requester reading clause
      (program.value (vars.inputs requester reading)) := by
  obtain ⟨tree, compiled, written, expandsTree, rfl⟩ := expands
  rw [Tree.value_program]
  exact ⟨tree, written, expandsTree.means requester reading⟩

/-- Programs that a clause is replaced by have the same value, wherever their variables stand. -/
theorem ClauseExpands.value_eq {clause : Clause} {program other : Program}
    (expands : scope.ClauseExpands vars clause program)
    (expandsOther : scope.ClauseExpands later clause other) (requester : String)
    (reading : Reading) :
    program.value (vars.inputs requester reading) =
      other.value (later.inputs requester reading) :=
  (expands.means requester reading).unique (expandsOther.means requester reading)

/-- The symbols that tokens are replaced by, one token after another. -/
inductive Renders (scope : Scope) (vars : VariableTable) : List Token → Program → Prop where
  | nil : Renders scope vars [] []
  | connective (kind : Connective) {rest : List Token} {program : Program} :
      Renders scope vars rest program →
      Renders scope vars (.connective kind :: rest) (kind.operator.code :: program)
  | atom {token : Token} {compiled : Tree Primitive} {rest : List Token} {program : Program} :
      scope.Expands vars (.atom token) compiled → Renders scope vars rest program →
      Renders scope vars (token :: rest) (compiled.program ++ program)

/-- What tokens are replaced by stays so when variables are added. -/
theorem Renders.mono {tokens : List Token} {program : Program}
    (renders : scope.Renders vars tokens program) (before : vars.Precedes later) :
    scope.Renders later tokens program := by
  induction renders with
  | nil => exact .nil
  | connective kind _ ih => exact .connective kind ih
  | atom expands _ ih => exact .atom (expands.mono before) ih

/-- Symbols of tokens one after another stand one after another. -/
theorem Renders.append {first second : List Token} {program other : Program}
    (rendersFirst : scope.Renders vars first program)
    (rendersSecond : scope.Renders vars second other) :
    scope.Renders vars (first ++ second) (program ++ other) := by
  induction rendersFirst with
  | nil => exact rendersSecond
  | connective kind _ ih => exact .connective kind ih
  | atom expands _ ih =>
      rw [List.append_assoc]
      exact .atom expands ih

/-- The symbols of two runs of tokens part where the tokens do. -/
theorem Renders.split {first second : List Token} {program : Program}
    (renders : scope.Renders vars (first ++ second) program) :
    ∃ before after, scope.Renders vars first before ∧ scope.Renders vars second after ∧
      program = before ++ after := by
  induction first generalizing program with
  | nil => exact ⟨[], program, .nil, renders, rfl⟩
  | cons token rest ih =>
      cases renders with
      | connective kind others =>
          obtain ⟨before, after, rendersRest, rendersSecond, rfl⟩ := ih others
          exact ⟨_, after, .connective kind rendersRest, rendersSecond, rfl⟩
      | atom expands others =>
          obtain ⟨before, after, rendersRest, rendersSecond, rfl⟩ := ih others
          exact ⟨_, after, .atom expands rendersRest, rendersSecond,
            (List.append_assoc _ _ _).symm⟩

/-- The tokens of a tree are replaced by the symbols of what the tree is replaced by. -/
theorem Renders.expands {tree : Tree Token} (proper : tree.Proper) {program : Program}
    (renders : scope.Renders vars tree.tokens program) :
    ∃ compiled, scope.Expands vars tree compiled ∧ program = compiled.program := by
  induction tree generalizing program with
  | atom token =>
      cases renders with
      | connective kind _ => simp [Tree.Proper, Tree.All, Token.isConnective] at proper
      | atom expands others =>
          cases others
          exact ⟨_, expands, List.append_nil _⟩
  | join kind left right ihLeft ihRight =>
      obtain ⟨operands, final, rendersOperands, rendersFinal, rfl⟩ := renders.split
      obtain ⟨before, after, rendersLeft, rendersRight, rfl⟩ := rendersOperands.split
      obtain ⟨first, expandsLeft, rfl⟩ := ihLeft proper.1 rendersLeft
      obtain ⟨second, expandsRight, rfl⟩ := ihRight proper.2 rendersRight
      cases rendersFinal with
      | connective kind others =>
          cases others
          exact ⟨.join kind first second, .join expandsLeft expandsRight, rfl⟩
      | atom expands _ => cases expands

end Scope

end Randomizer
