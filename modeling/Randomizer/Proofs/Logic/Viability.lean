import Mathlib.Logic.ExistsUnique
import Mathlib.Order.Bounds.Basic
import Randomizer.Amount
import Randomizer.Proofs.Logic.Expression

/-!
What the check of a program says when it fails. A start of a program is viable when some words after
it make it write an expression. The check points at the first symbol that ends every such hope, and
at the end when the program is viable but not complete.
-/

namespace Randomizer.Program

/-- Some words that follow the program complete it to one that writes an expression. -/
def Viable (program : Program) : Prop :=
  ∃ rest : Program, (∀ code ∈ rest, Amount.InRange code) ∧
    ∃ expression : Expression, expression.program = program ++ rest

/-- The height of the stack after a program that starts at a given height, unless some symbol means
nothing or finds too few operands. -/
def height? (depth : Nat) : Program → Option Nat
  | [] => some depth
  | code :: rest =>
    match Symbol.ofCode? code with
    | none => none
    | some symbol => if depth < symbol.arity then none else height? (depth - symbol.arity + 1) rest

/-- The height after two programs is the height after the second from that after the first. -/
theorem height?_append (depth : Nat) (first second : Program) :
    height? depth (first ++ second) =
      (height? depth first).bind fun height => height? height second := by
  induction first generalizing depth with
  | nil => rfl
  | cons code rest ih =>
      simp only [List.cons_append, height?]
      split
      · rfl
      · split
        · rfl
        · exact ih _

/-- What comes after a start that the check gets through is checked from the height it left. -/
theorem checkFrom_append {depth height : Nat} {before : Program}
    (reached : height? depth before = some height) (position : Nat) (rest : Program) :
    checkFrom depth position (before ++ rest) =
      checkFrom height (position + before.length) rest := by
  induction before generalizing depth position with
  | nil =>
      cases reached
      rfl
  | cons code others ih =>
      cases meaning : Symbol.ofCode? code with
      | none => simp only [height?, meaning, reduceCtorEq] at reached
      | some symbol =>
          simp only [height?, meaning] at reached
          split at reached
          · cases reached
          next enough =>
            simp only [List.cons_append, checkFrom, meaning, if_neg enough, ih reached,
              List.length_cons]
            rw [Nat.add_right_comm, Nat.add_assoc]

/-- A program without a height has a first symbol at which the check stops. -/
theorem exists_stuck {depth : Nat} {program : Program} (stuck : height? depth program = none) :
    ∃ before code after height, program = before ++ code :: after ∧
      height? depth before = some height ∧ height? height [code] = none := by
  induction program generalizing depth with
  | nil => cases stuck
  | cons code rest ih =>
      cases first : height? depth [code] with
      | none => exact ⟨[], code, rest, depth, rfl, rfl, first⟩
      | some height =>
          rw [← List.singleton_append, height?_append, first] at stuck
          obtain ⟨before, other, after, last, rfl, reached, stops⟩ := ih stuck
          refine ⟨code :: before, other, after, last, rfl, ?_, stops⟩
          rw [← List.singleton_append, height?_append, first]
          exact reached

/-- The check stops at a code that finds too few operands or has no meaning. -/
theorem checkFrom_of_stuck {height : Nat} {code : Int} (stops : height? height [code] = none)
    (position : Nat) (rest : Program) :
    checkFrom height position (code :: rest) = .error position := by
  cases meaning : Symbol.ofCode? code with
  | none => simp only [checkFrom, meaning]
  | some symbol =>
      simp only [height?, meaning] at stops
      split at stops
      next missing => simp only [checkFrom, meaning, if_pos missing]
      · cases stops

/-- At the end of a program the check asks for one operand. -/
theorem checkFrom_nil (depth position : Nat) :
    checkFrom depth position [] = if depth = 1 then .ok () else .error position := rfl

/-- A program that is checked nowhere falls short of operands. -/
theorem isSome_height?_of_checkFrom {depth position : Nat} {program : Program}
    (checked : checkFrom depth position program = .ok ()) : (height? depth program).isSome := by
  cases reached : height? depth program with
  | some height => rfl
  | none =>
      obtain ⟨before, code, after, height, rfl, reachedBefore, stops⟩ := exists_stuck reached
      rw [checkFrom_append reachedBefore, checkFrom_of_stuck stops] at checked
      cases checked

/-- A symbol leaves one value in place of its operands. -/
theorem height?_code {symbol : Symbol} {depth : Nat} (enough : symbol.arity ≤ depth) :
    height? depth [symbol.code] = some (depth - symbol.arity + 1) := by
  simp only [height?, Symbol.ofCode?_code, if_neg (Nat.not_lt.2 enough)]

/-- A leaf adds a value. -/
theorem height?_leaf {symbol : Symbol} (leaf : symbol.arity = 0) (depth : Nat) :
    height? depth [symbol.code] = some (depth + 1) := by
  have enough : symbol.arity ≤ depth := by omega
  rw [height?_code enough, leaf, Nat.sub_zero]

/-- A binary operator takes one value away. -/
theorem height?_operator {kind : Operator} (binary : kind.arity = 2) (depth : Nat) :
    height? (depth + 1 + 1) [kind.code] = some (depth + 1) := by
  have arity : (Symbol.operator kind).arity = 2 := binary
  have enough : (Symbol.operator kind).arity ≤ depth + 1 + 1 := by omega
  have reached := height?_code enough
  rwa [arity, Nat.add_sub_cancel (m := 2)] at reached

/-- What writes an expression adds one value to the stack. -/
theorem height?_expression (expression : Expression) (depth : Nat) :
    height? depth expression.program = some (depth + 1) := by
  induction expression generalizing depth with
  | operand content =>
      have leaf : content.symbol.arity = 0 := by cases content <;> rfl
      exact height?_leaf leaf depth
  | constant value =>
      have leaf : (Symbol.operator (constantOperator value)).arity = 0 := by cases value <;> rfl
      exact height?_leaf leaf depth
  | join kind left right ihLeft ihRight =>
      have binary : kind.operator.arity = 2 := by cases kind <;> rfl
      simp only [Expression.program, height?_append, ihLeft, ihRight, Option.bind_some,
        height?_operator binary]
  | compare kind left right ihLeft ihRight =>
      have binary : kind.operator.arity = 2 := by cases kind <;> rfl
      simp only [Expression.program, height?_append, ihLeft, ihRight, Option.bind_some,
        height?_operator binary]

/-- Once the check has got through a program, only the height matters. -/
theorem check_of_height? {program : Program} {height : Nat}
    (reached : height? 0 program = some height) :
    program.check = if height = 1 then .ok () else .error program.length := by
  have checked := checkFrom_append reached 0 []
  rwa [List.append_nil, Nat.zero_add, checkFrom_nil] at checked

/-- A program is well formed just if it is that of an expression. -/
theorem wellFormed_iff_exists_expression {program : Program} :
    program.WellFormed ↔ ∃ expression : Expression, expression.program = program := by
  constructor
  · exact Expression.exists_of_wellFormed
  · rintro ⟨expression, rfl⟩
    rw [WellFormed, check_of_height? (height?_expression expression 0), if_pos rfl]

/-- From every height some words lead to a single value: a constant where there is nothing, and
otherwise a conjunction for each value too many. -/
theorem exists_completion (height position : Nat) :
    ∃ rest : Program, (∀ code ∈ rest, Amount.InRange code) ∧
      checkFrom height position rest = .ok () := by
  cases height with
  | zero => exact ⟨[Operator.always.code], by decide, rfl⟩
  | succ height =>
      refine ⟨List.replicate height Operator.and.code, fun code member => ?_, ?_⟩
      · rw [List.eq_of_mem_replicate member]
        decide
      · induction height generalizing position with
        | zero => rfl
        | succ height ih =>
            rw [List.replicate_succ, checkFrom_operator (show Operator.and.arity = 2 from rfl)]
            exact ih _

/-- A start is viable exactly when the check gets through it. -/
theorem viable_iff_isSome_height? {program : Program} :
    program.Viable ↔ (height? 0 program).isSome := by
  constructor
  · rintro ⟨rest, _, written⟩
    have wellFormed := wellFormed_iff_exists_expression.2 written
    have whole := isSome_height?_of_checkFrom wellFormed
    rw [height?_append] at whole
    cases reached : height? 0 program with
    | some height => rfl
    | none =>
        rw [reached] at whole
        cases whole
  · intro reached
    obtain ⟨height, reached⟩ := Option.isSome_iff_exists.1 reached
    obtain ⟨rest, words, completes⟩ := exists_completion height (0 + program.length)
    refine ⟨rest, words, wellFormed_iff_exists_expression.1 ?_⟩
    rw [WellFormed, check, checkFrom_append reached]
    exact completes

/-- The beginning of a viable program is viable. -/
theorem Viable.of_append {before : Program} (after : Program)
    (viable : (before ++ after).Viable) : before.Viable := by
  obtain ⟨rest, words, expression, written⟩ := viable
  rw [viable_iff_isSome_height?]
  have whole := height?_expression expression 0
  rw [written, List.append_assoc, height?_append] at whole
  obtain ⟨height, reached, _⟩ := Option.bind_eq_some_iff.1 whole
  exact Option.isSome_iff_exists.2 ⟨height, reached⟩

/-- A program either has a height, and then everything in it is viable, or the check stops at its
first hopeless symbol. -/
theorem height?_or_stuck (program : Program) :
    (∃ height, height? 0 program = some height ∧
      ∀ position, Viable (program.take (position + 1))) ∨
    ∃ position < program.length, program.check = .error position ∧ ¬ program.Viable ∧
      IsLeast {position | position < program.length ∧
        ¬ Viable (program.take (position + 1))} position := by
  cases reached : height? 0 program with
  | some height =>
      refine .inl ⟨height, rfl, fun position => ?_⟩
      apply Viable.of_append (program.drop (position + 1))
      rw [List.take_append_drop, viable_iff_isSome_height?, reached]
      rfl
  | none =>
      have hopeless : ¬ program.Viable := by
        rw [viable_iff_isSome_height?, reached]
        simp
      obtain ⟨before, code, after, height, rfl, reachedBefore, stops⟩ := exists_stuck reached
      have inside : before.length < (before ++ code :: after).length := by simp
      refine .inr ⟨before.length, inside, ?_, hopeless, ⟨inside, ?_⟩, ?_⟩
      · rw [check, checkFrom_append reachedBefore, checkFrom_of_stuck stops, Nat.zero_add]
      · rw [List.take_length_add_append, List.take_succ_cons, List.take_zero,
          viable_iff_isSome_height?, height?_append, reachedBefore, Option.bind_some, stops]
        simp
      · rintro position ⟨_, hopelessHere⟩
        by_contra earlier
        apply hopelessHere
        rw [List.take_append_of_le_length (by omega)]
        apply Viable.of_append (before.drop (position + 1))
        rw [List.take_append_drop, viable_iff_isSome_height?, reachedBefore]
        rfl

/-- A well-formed program writes one expression, and no other writes it. -/
theorem wellFormed_iff_existsUnique {program : Program} :
    program.WellFormed ↔ (∀ code ∈ program, ∃ symbol, Symbol.ofCode? code = some symbol) ∧
      ∃! expression : Expression, expression.program = program := by
  constructor
  · intro wellFormed
    constructor
    · intro code member
      obtain ⟨before, rest, rfl⟩ := List.append_of_mem member
      obtain ⟨symbol, meaning, _⟩ := wellFormed.exists_symbol
      exact ⟨symbol, meaning⟩
    · obtain ⟨expression, rfl⟩ := wellFormed_iff_exists_expression.1 wellFormed
      exact ⟨expression, rfl, fun other same => Expression.program_injective same⟩
  · rintro ⟨_, expression, written, _⟩
    exact wellFormed_iff_exists_expression.2 ⟨expression, written⟩

/-- A failure within the program is at the first symbol after which nothing can be well formed. -/
theorem check_error_inside_iff {program : Program} {position : Nat} :
    program.check = .error position ∧ position < program.length ↔
      IsLeast {position | position < program.length ∧
        ¬ Viable (program.take (position + 1))} position := by
  rcases height?_or_stuck program with
    ⟨height, reached, viable⟩ | ⟨first, inside, stopped, _, least⟩
  · have whole := check_of_height? reached
    constructor
    · rintro ⟨failed, inside⟩
      rw [failed] at whole
      split at whole <;> cases whole
      exact absurd inside (Nat.lt_irrefl _)
    · rintro ⟨⟨_, hopeless⟩, _⟩
      exact absurd (viable position) hopeless
  · constructor
    · rintro ⟨failed, _⟩
      rw [stopped] at failed
      cases failed
      exact least
    · intro other
      obtain rfl := least.unique other
      exact ⟨stopped, inside⟩

/-- A failure at the end is that of a program that can still become well formed. -/
theorem check_error_length_iff {program : Program} :
    program.check = .error program.length ↔ ¬ program.WellFormed ∧ program.Viable := by
  rcases height?_or_stuck program with
    ⟨height, reached, _⟩ | ⟨first, inside, stopped, hopeless, _⟩
  · have viable := viable_iff_isSome_height?.2 (Option.isSome_iff_exists.2 ⟨height, reached⟩)
    rw [WellFormed, check_of_height? reached]
    split <;> simp [viable]
  · rw [stopped]
    constructor
    · intro failed
      cases failed
      exact absurd inside (Nat.lt_irrefl _)
    · rintro ⟨_, viable⟩
      exact absurd viable hopeless

/-- The check decides the grammar of programs. A failure within the program points at the first
symbol after which nothing can be well formed, and a failure at the end says that something still
can. -/
theorem check_decides (program : Program) :
    (program.check = .ok () ↔
      (∀ code ∈ program, ∃ symbol, Symbol.ofCode? code = some symbol) ∧
        ∃! expression : Expression, expression.program = program) ∧
    (∀ position, program.check = .error position ∧ position < program.length ↔
      IsLeast {position | position < program.length ∧
        ¬ Viable (program.take (position + 1))} position) ∧
    (program.check = .error program.length ↔
      (¬ ∃ expression : Expression, expression.program = program) ∧ program.Viable) := by
  refine ⟨wellFormed_iff_existsUnique, fun _ => check_error_inside_iff, ?_⟩
  rw [← wellFormed_iff_exists_expression]
  exact check_error_length_iff

end Randomizer.Program
