import Randomizer.Placement.Participant
import Randomizer.Proofs.Logic.Evaluation

namespace Randomizer

/-- The variable in the slot is an integer literal. -/
def VariableTable.Literal (table : VariableTable) (slot : Nat) : Prop :=
  ∃ amount, table.atSlot? slot = some (Variable.constant amount)

/-- The variable of a literal slot has one value, whoever asks and whatever is read. -/
theorem VariableTable.Literal.exists_value {table : VariableTable} {slot : Nat}
    (literal : table.Literal slot) :
    ∃ amount, ∀ requester reading, table.value requester reading slot = amount := by
  obtain ⟨amount, found⟩ := literal
  refine ⟨amount, fun requester reading => ?_⟩
  rw [value, found]
  rfl

/-- Different symbols have different codes. -/
theorem Symbol.code_inj {first second : Symbol} : first.code = second.code ↔ first = second := by
  refine ⟨fun same => ?_, congrArg code⟩
  have decoded := ofCode?_code first
  rw [same, ofCode?_code] at decoded
  exact (Option.some.inj decoded).symm

/-- Operands are known by their symbols. -/
theorem Operand.symbol_injective {first second : Operand} (same : first.symbol = second.symbol) :
    first = second := by
  cases first <;> cases second <;> cases same <;> rfl

/-- No operand has the symbol of an operator. -/
theorem Operand.symbol_ne_operator (content : Operand) (kind : Operator) :
    content.symbol ≠ .operator kind := by
  cases content <;> nofun

/-- No connective has the operator of a comparison. -/
theorem Connective.operator_ne (kind : Connective) (comparison : Comparison) :
    kind.operator ≠ comparison.operator := by
  cases kind <;> cases comparison <;> decide

/-- No constant has the operator of a comparison. -/
theorem constantOperator_ne (value : Bool) (comparison : Comparison) :
    constantOperator value ≠ comparison.operator := by
  cases value <;> cases comparison <;> decide

/-- The comparison asks for more of a term than the variable in a slot. -/
inductive Comparison.AsksMore : Comparison → Operand → Operand → Prop where
  | greater (id : TermId) (slot : Nat) : AsksMore .greater (.term id) (.slot slot)
  | less (slot : Nat) (id : TermId) : AsksMore .less (.slot slot) (.term id)

namespace Program

/-- Every comparison comes right after two operands of which it asks more of a term than of a
variable. The operands may stand in what comes before the program. -/
def Thresholds (prior program : Program) : Prop :=
  ∀ before rest (kind : Comparison), program = before ++ kind.operator.code :: rest →
    ∃ earlier left right, prior ++ before = earlier ++ [left.symbol.code, right.symbol.code] ∧
      kind.AsksMore left right

/-- A well-formed program with no variables but literals, in which comparisons only ask for more of
a term than a literal. -/
structure Cumulative (vars : VariableTable) (program : Program) : Prop where
  wellFormed : program.WellFormed
  literals : ∀ slot, (Symbol.slot slot).code ∈ program → vars.Literal slot
  thresholds : Thresholds [] program

/-- A program keeps to thresholds if its first part does, and the second does after the first. -/
theorem thresholds_append_iff {prior first second : Program} :
    Thresholds prior (first ++ second) ↔
      Thresholds prior first ∧ Thresholds (prior ++ first) second := by
  constructor
  · intro both
    constructor
    · intro before rest kind split
      exact both before (rest ++ second) kind (by simp [split])
    · intro before rest kind split
      rw [List.append_assoc]
      exact both (first ++ before) rest kind (by simp [split])
  · rintro ⟨ofFirst, ofSecond⟩ before rest kind split
    rcases List.append_eq_append_iff.1 split with ⟨middle, rfl, within⟩ | ⟨middle, rfl, within⟩
    · rw [← List.append_assoc]
      exact ofSecond middle rest kind within
    · cases middle with
      | nil =>
          have here := ofSecond [] rest kind within.symm
          rwa [List.append_nil, List.append_nil] at here
      | cons code more =>
          obtain ⟨rfl, rfl⟩ := List.cons.inj within
          exact ofFirst before more kind rfl

/-- A symbol that does not compare sets no threshold. -/
theorem thresholds_singleton (prior : Program) (symbol : Symbol)
    (apart : ∀ kind : Comparison, symbol ≠ .operator kind.operator) :
    Thresholds prior [symbol.code] := by
  intro before rest kind split
  obtain ⟨rfl, same, rfl⟩ :
      before = [] ∧ symbol.code = (Symbol.operator kind.operator).code ∧ rest = [] := by
    cases before <;> simp_all [Symbol.code]
  exact absurd (Symbol.code_inj.1 same) (apart kind)

end Program

namespace Expression

/-- An expression in which comparisons only ask for more of a term than a literal. -/
inductive Cumulative (vars : VariableTable) : Expression → Prop where
  | term (id : TermId) : Cumulative vars (.operand (.term id))
  | literal {slot : Nat} : vars.Literal slot → Cumulative vars (.operand (.slot slot))
  | constant (value : Bool) : Cumulative vars (.constant value)
  | join (kind : Connective) {left right : Expression} : Cumulative vars left →
      Cumulative vars right → Cumulative vars (.join kind left right)
  | compare {kind : Comparison} {left right : Operand} : kind.AsksMore left right →
      (∀ slot, left = .slot slot ∨ right = .slot slot → vars.Literal slot) →
      Cumulative vars (.compare kind (.operand left) (.operand right))

variable {vars : VariableTable}

/-- What is written up to the code of an operand is that operand. -/
theorem eq_operand_of_append {before earlier : Program} {expression : Expression}
    {content : Operand}
    (ends : before ++ expression.program = earlier ++ [content.symbol.code]) :
    expression = .operand content ∧ before = earlier := by
  have last {start : Program} (symbol : Symbol)
      (same : start ++ [symbol.code] = earlier ++ [content.symbol.code]) :
      start = earlier ∧ symbol = content.symbol := by
    obtain ⟨first, code⟩ := List.append_inj' same rfl
    exact ⟨first, Symbol.code_inj.1 (List.singleton_inj.1 code)⟩
  cases expression with
  | operand other =>
      obtain ⟨same, isSymbol⟩ := last other.symbol ends
      exact ⟨congrArg operand (Operand.symbol_injective isSymbol), same⟩
  | constant value =>
      obtain ⟨_, isSymbol⟩ := last (.operator (constantOperator value)) ends
      exact absurd isSymbol.symm (content.symbol_ne_operator _)
  | join kind left right | compare kind left right =>
      rw [program, ← List.append_assoc] at ends
      obtain ⟨_, isSymbol⟩ := last (.operator kind.operator) ends
      exact absurd isSymbol.symm (content.symbol_ne_operator _)

/-- The last two codes before a comparison are its operands, so that what holds of the codes holds
of the expression. The induction is over what an expression adds to the program so far. -/
theorem cumulative_of_program {expression : Expression} {prior : Program}
    (literals : ∀ slot, (Symbol.slot slot).code ∈ expression.program → vars.Literal slot)
    (thresholds : Program.Thresholds prior expression.program) : expression.Cumulative vars := by
  induction expression generalizing prior with
  | operand content =>
      cases content with
      | term id => exact .term id
      | slot slot => exact .literal (literals slot (List.mem_singleton_self _))
  | constant value => exact .constant value
  | join kind left right ihLeft ihRight =>
      rw [program, Program.thresholds_append_iff, Program.thresholds_append_iff] at thresholds
      obtain ⟨⟨ofLeft, ofRight⟩, _⟩ := thresholds
      refine .join kind (ihLeft (fun slot member => ?_) ofLeft)
        (ihRight (fun slot member => ?_) ofRight)
      · exact literals slot (by simp [program, member])
      · exact literals slot (by simp [program, member])
  | compare kind left right =>
      obtain ⟨earlier, first, second, ends, asksMore⟩ :=
        thresholds (left.program ++ right.program) [] kind rfl
      have endsRight : (prior ++ left.program) ++ right.program =
          (earlier ++ [first.symbol.code]) ++ [second.symbol.code] := by
        simpa using ends
      obtain ⟨rfl, endsLeft⟩ := eq_operand_of_append endsRight
      obtain ⟨rfl, _⟩ := eq_operand_of_append endsLeft
      refine .compare asksMore fun slot isSlot => literals slot ?_
      rcases isSlot with rfl | rfl
      · exact List.mem_append_left _ (List.mem_append_left _ (List.mem_singleton_self _))
      · exact List.mem_append_left _ (List.mem_append_right _ (List.mem_singleton_self _))

/-- The program of an expression in which more is asked for keeps to thresholds. -/
theorem Cumulative.thresholds {expression : Expression} (cumulative : expression.Cumulative vars)
    (prior : Program) : Program.Thresholds prior expression.program := by
  have leaf (content : Operand) (prior : Program) :
      Program.Thresholds prior [content.symbol.code] :=
    Program.thresholds_singleton prior _ fun kind => content.symbol_ne_operator _
  induction cumulative generalizing prior with
  | term id => exact leaf _ prior
  | literal => exact leaf _ prior
  | constant value =>
      refine Program.thresholds_singleton prior (.operator (constantOperator value)) fun kind => ?_
      exact fun same => constantOperator_ne value kind (Symbol.operator.inj same)
  | join kind _ _ ihLeft ihRight =>
      rw [program, Program.thresholds_append_iff, Program.thresholds_append_iff]
      refine ⟨⟨ihLeft prior, ihRight _⟩, ?_⟩
      refine Program.thresholds_singleton _ (.operator kind.operator) fun comparison => ?_
      exact fun same => kind.operator_ne comparison (Symbol.operator.inj same)
  | @compare kind left right asksMore _ =>
      rw [program, Program.thresholds_append_iff, Program.thresholds_append_iff]
      refine ⟨⟨leaf left _, leaf right _⟩, ?_⟩
      intro before rest other split
      obtain ⟨rfl, same, rfl⟩ : before = [] ∧ kind.operator.code = other.operator.code ∧
          rest = [] := by
        cases before <;> simp_all
      have isKind : kind = other := by
        revert same
        cases kind <;> cases other <;> decide
      exact ⟨prior, left, right, by simp [program], isKind ▸ asksMore⟩

/-- All slots of an expression in which more is asked for are literal. -/
theorem Cumulative.literals {expression : Expression} (cumulative : expression.Cumulative vars)
    {slot : Nat} (member : (Symbol.slot slot).code ∈ expression.program) : vars.Literal slot := by
  have only (symbol : Symbol) (member : (Symbol.slot slot).code ∈ [symbol.code]) :
      symbol = .slot slot :=
    (Symbol.code_inj.1 (List.mem_singleton.1 member)).symm
  have notOperator (kind : Operator) (member : (Symbol.slot slot).code ∈ [kind.code]) : False := by
    cases only (.operator kind) member
  induction cumulative with
  | term id => cases only _ member
  | literal literal =>
      cases only _ member
      exact literal
  | constant value => exact (notOperator _ member).elim
  | join kind _ _ ihLeft ihRight =>
      rcases List.mem_append.1 member with operands | last
      · exact (List.mem_append.1 operands).elim ihLeft ihRight
      · exact (notOperator _ last).elim
  | compare _ literals =>
      rcases List.mem_append.1 member with operands | last
      · refine literals slot ((List.mem_append.1 operands).imp ?_ ?_)
        · exact fun first => Operand.symbol_injective (only _ first)
        · exact fun second => Operand.symbol_injective (only _ second)
      · exact (notOperator _ last).elim

/-- Truth values stand in the order of implication. -/
theorem truth_le {first second : Bool} (implies : first → second) : truth first ≤ truth second := by
  cases first with
  | false => cases second <;> decide
  | true => rw [implies rfl]

/-- In two states, of which the second has no less of any term, the second value is no less. -/
theorem Cumulative.value_le {expression : Expression} (cumulative : expression.Cumulative vars)
    (requester : String) {lower upper : Reading} (below : ∀ term, lower term ≤ upper term) :
    expression.value (vars.inputs requester lower) ≤
      expression.value (vars.inputs requester upper) := by
  induction cumulative with
  | term id => exact below id
  | literal literal =>
      obtain ⟨amount, value⟩ := literal.exists_value
      simp only [Expression.value, Operand.value, VariableTable.inputs, value, Int.le_refl]
  | constant value => exact Int.le_refl _
  | join kind _ _ ihLeft ihRight =>
      cases kind with
      | and =>
          apply truth_le
          simp only [Bool.and_eq_true, decide_eq_true_eq]
          omega
      | or =>
          apply truth_le
          simp only [Bool.or_eq_true, decide_eq_true_eq]
          omega
  | compare asksMore literals =>
      cases asksMore with
      | greater id slot | less slot id =>
          obtain ⟨amount, value⟩ := (literals slot (by simp)).exists_value
          have grows := below id
          apply truth_le
          simp only [Expression.value, Operand.value, VariableTable.inputs, value,
            decide_eq_true_eq]
          omega

end Expression

namespace Program

/-- A program is cumulative just when it writes an expression that is. -/
theorem cumulative_iff_exists_expression {vars : VariableTable} {program : Program} :
    program.Cumulative vars ↔
      ∃ expression : Expression, expression.program = program ∧ expression.Cumulative vars := by
  constructor
  · rintro ⟨wellFormed, literals, thresholds⟩
    obtain ⟨expression, rfl⟩ := Expression.exists_of_wellFormed wellFormed
    exact ⟨expression, rfl, Expression.cumulative_of_program literals thresholds⟩
  · rintro ⟨expression, rfl, cumulative⟩
    exact ⟨wellFormed_iff_exists_expression.2 ⟨expression, rfl⟩, fun _ => cumulative.literals,
      cumulative.thresholds []⟩

end Program

/-- The logic of a location and of all its costs is cumulative. -/
structure WorldLocation.Cumulative (vars : VariableTable) (location : WorldLocation) : Prop where
  logic : location.logic.program.Cumulative vars
  costs : ∀ definition, Cost.logic definition ∈ location.costs → definition.program.Cumulative vars

section Progress

variable {vars : VariableTable} {lower upper : Reading} (below : ∀ term, lower term ≤ upper term)
include below

/-- In a larger state a program in which more is asked for has no smaller value. -/
theorem Program.Cumulative.value_le {program : Program} (cumulative : program.Cumulative vars)
    (requester : String) :
    program.value (vars.inputs requester lower) ≤ program.value (vars.inputs requester upper) := by
  obtain ⟨expression, rfl, ofExpression⟩ := cumulative_iff_exists_expression.1 cumulative
  have grows := ofExpression.value_le requester below
  rwa [← (cumulative.wellFormed.runsAs _).value, ← (cumulative.wellFormed.runsAs _).value]
    at grows

/-- A definition in which more is asked for holds on in every larger state. -/
theorem Definition.holds_of_le {definition : Definition}
    (cumulative : definition.program.Cumulative vars) (holds : definition.holds vars lower) :
    definition.holds vars upper := by
  have grows := cumulative.value_le below definition.name
  have positive : 0 < definition.program.value (vars.inputs definition.name lower) :=
    of_decide_eq_true holds
  exact decide_eq_true (Int.lt_of_lt_of_le positive grows)

/-- A location in whose logic and costs more is asked for stays open in every larger state. -/
theorem WorldLocation.isOpen_of_le {location : WorldLocation}
    (cumulative : location.Cumulative vars) (isOpen : location.isOpen vars lower) :
    location.isOpen vars upper := by
  rw [WorldLocation.isOpen, Bool.and_eq_true, List.all_eq_true] at isOpen ⊢
  refine ⟨fun cost member => ?_, Definition.holds_of_le below cumulative.logic isOpen.2⟩
  have met := isOpen.1 cost member
  cases cost with
  | threshold least =>
      have grows := below least.term
      simp only [Cost.isMet, decide_eq_true_eq] at met ⊢
      omega
  | logic definition => exact Definition.holds_of_le below (cumulative.costs definition member) met

end Progress

namespace Manager

/-- Progress never closes cumulative logic: from a state to one in which no term has less, no value
falls, and every definition that held and every location that was open still is. -/
theorem cumulative_persists (manager : Manager) {lower upper : Reading}
    (below : ∀ term, lower term ≤ upper term) :
    (∀ (program : Program) (requester : String), program.Cumulative manager.vars →
      program.value (manager.vars.inputs requester lower) ≤
        program.value (manager.vars.inputs requester upper)) ∧
    (∀ definition : Definition, definition.program.Cumulative manager.vars →
      definition.holds manager.vars lower → definition.holds manager.vars upper) ∧
    ∀ location : WorldLocation, location.Cumulative manager.vars →
      location.isOpen manager.vars lower → location.isOpen manager.vars upper :=
  ⟨fun _ requester cumulative => cumulative.value_le below requester,
    fun _ cumulative => Definition.holds_of_le below cumulative,
    fun _ cumulative => WorldLocation.isOpen_of_le below cumulative⟩

/-- A manager with one literal and two terms. -/
def vault : Manager where
  terms := ⟨["Keys", "Lamp"], by decide⟩
  macros := ∅
  resolver := Resolver.integers
  vars := ⟨[⟨"2", Variable.constant 2⟩]⟩
  definitions := ∅
  items := ∅
  transitions := ∅
  waypoints := ∅

/-- A door for which there have to be more than two keys or a lamp, and more than two keys in any
case. -/
def vaultDoor : WorldLocation where
  logic := ⟨"Door", [0, -100, -7, 1, -2]⟩
  costs := [.threshold ⟨⟨0⟩, 3⟩, .logic ⟨"Keys", [-100, 0, -6]⟩]
  priority := .zero
  sphere := 0
  reachable := .none

/-- The lamp is below zero, and becomes positive. -/
theorem cumulative_persists_vault :
    let lower := (Progression.ofAmounts [⟨⟨0⟩, 3⟩, ⟨⟨1⟩, -2⟩]).read
    let upper := (Progression.ofAmounts [⟨⟨0⟩, 7⟩, ⟨⟨1⟩, 4⟩]).read
    Program.Cumulative vault.vars [0, -100, -7, 1, -2] ∧ vaultDoor.Cumulative vault.vars ∧
      Program.value (vault.vars.inputs "Door" lower) [0, -100, -7, 1, -2] ≤
        Program.value (vault.vars.inputs "Door" upper) [0, -100, -7, 1, -2] ∧
      vaultDoor.isOpen vault.vars lower ∧ vaultDoor.isOpen vault.vars upper := by
  intro lower upper
  have literal (slot : Nat) (first : slot = 0) : vault.vars.Literal slot := ⟨2, first ▸ rfl⟩
  have keys : Expression.Cumulative vault.vars
      (.compare .greater (.operand (.term ⟨0⟩)) (.operand (.slot 0))) :=
    .compare (.greater ⟨0⟩ 0) fun slot isSlot => literal slot (by simp_all)
  have keysToo : Expression.Cumulative vault.vars
      (.compare .less (.operand (.slot 0)) (.operand (.term ⟨0⟩))) :=
    .compare (.less 0 ⟨0⟩) fun slot isSlot => literal slot (by simp_all)
  have either : Program.Cumulative vault.vars [0, -100, -7, 1, -2] :=
    Program.cumulative_iff_exists_expression.2 ⟨_, rfl, .join .or keys (.term ⟨1⟩)⟩
  have door : vaultDoor.Cumulative vault.vars := by
    refine ⟨either, fun definition member => ?_⟩
    simp only [vaultDoor, List.mem_cons, reduceCtorEq, List.not_mem_nil, or_false, false_or,
      Cost.logic.injEq] at member
    rw [member]
    exact Program.cumulative_iff_exists_expression.2 ⟨_, rfl, keysToo⟩
  have below : ∀ term, lower term ≤ upper term := by
    rintro ⟨index⟩
    match index with
    | 0 | 1 => decide
    | _ + 2 => exact Int.le_refl _
  have isOpen : vaultDoor.isOpen vault.vars lower := by decide
  obtain ⟨values, _, locations⟩ := cumulative_persists vault below
  exact ⟨either, door, values _ "Door" either, isOpen, locations vaultDoor door isOpen⟩

end Manager

end Randomizer
