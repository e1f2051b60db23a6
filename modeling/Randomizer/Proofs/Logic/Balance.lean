import Randomizer.Proofs.Logic.Closure
import Randomizer.Proofs.Logic.Registration

/-!
The balance of programs. A program that passes the check adds one value to the stack wherever it
runs. Tokens are counted before they are compiled, and a fallback counts as an operand, also where
the branch that is compiled is a connective and takes two values off instead. So what compiles is
well formed unless a fallback comes out as a connective.
-/

namespace Randomizer

namespace Program

/-- How many more values there are on the stack after a code. -/
def gain (code : Int) : Int :=
  match Symbol.ofCode? code with
  | some symbol => 1 - symbol.arity
  | none => 0

def balance (program : Program) : Int := (program.map gain).sum

/-- The balance of a program adds up over its parts. -/
theorem balance_append (first second : Program) :
    balance (first ++ second) = balance first + balance second := by
  rw [balance, List.map_append, List.sum_append, balance, balance]

/-- A check that succeeds has one operand left, counted from the depth at its start. -/
theorem balance_of_checkFrom {program : Program} {depth position : Nat}
    (checked : checkFrom depth position program = .ok ()) : depth + balance program = 1 := by
  induction program generalizing depth position with
  | nil =>
      unfold checkFrom at checked
      split at checked
      · next single =>
        rw [single]
        rfl
      · cases checked
  | cons code rest ih =>
      obtain ⟨symbol, meaning, enough, checkedRest⟩ := checkFrom_cons_ok checked
      have balanced := ih checkedRest
      have gained : gain code = 1 - symbol.arity := by rw [gain, meaning]
      have split : balance (code :: rest) = gain code + balance rest := List.sum_cons
      omega

/-- A well-formed program has one operand more than connectives. -/
theorem WellFormed.balance {program : Program} (wellFormed : program.WellFormed) :
    program.balance = 1 := by
  have balanced := balance_of_checkFrom wellFormed
  omega

/-- A program that passes the check leaves alone what is below its operands. -/
theorem checkFrom_lift {program : Program} {depth position : Nat}
    (checked : checkFrom depth position program = .ok ()) (below other : Nat) (rest : Program) :
    checkFrom (depth + below) other (program ++ rest) =
      checkFrom (below + 1) (other + program.length) rest := by
  induction program generalizing depth position other with
  | nil =>
      unfold checkFrom at checked
      split at checked
      · next single =>
        rw [single, Nat.add_comm 1 below, List.nil_append, List.length_nil]
        rfl
      · cases checked
  | cons code later ih =>
      obtain ⟨symbol, meaning, enough, checkedRest⟩ := checkFrom_cons_ok checked
      have lifted := ih checkedRest (other + 1)
      have deeper : depth - symbol.arity + 1 + below = depth + below - symbol.arity + 1 := by omega
      have next : other + (code :: later).length = other + 1 + later.length := by
        rw [List.length_cons]
        omega
      rw [deeper] at lifted
      rw [next, ← lifted, List.cons_append, checkFrom, meaning]
      exact if_neg (by omega)

/-- A well-formed program adds one value to the stack. -/
theorem WellFormed.checkFrom_append {program : Program} (wellFormed : program.WellFormed)
    (depth position : Nat) (rest : Program) :
    checkFrom depth position (program ++ rest) =
      checkFrom (depth + 1) (position + program.length) rest := by
  have lifted := checkFrom_lift wellFormed depth position rest
  rwa [Nat.zero_add] at lifted

end Program

namespace Clause

/-- How many values tokens add when some of them are taken for connectives. -/
def balance (joins : Token → Bool) (tokens : List Token) : Int :=
  (tokens.map fun token => if joins token then (-1 : Int) else 1).sum

/-- The first token takes an operand away if it joins, or else adds one. -/
theorem balance_cons (joins : Token → Bool) (token : Token) (rest : List Token) :
    balance joins (token :: rest) = (if joins token then -1 else 1) + balance joins rest :=
  List.sum_cons

/-- No token adds more than one operand. -/
theorem balance_cons_le (joins : Token → Bool) (token : Token) (rest : List Token) :
    balance joins (token :: rest) ≤ 1 + balance joins rest := by
  rw [balance_cons]
  split <;> omega

/-- A token that adds a value is an operand. -/
theorem operand_of_balance_lt {joins : Token → Bool} {token : Token} (rest : List Token)
    (more : balance joins rest < balance joins (token :: rest)) : joins token = false := by
  rw [balance_cons] at more
  split at more
  · omega
  · next operand => exact Bool.eq_false_iff.2 operand

/-- The balance of tokens adds up over their parts. -/
theorem balance_append (joins : Token → Bool) (first second : List Token) :
    balance joins (first ++ second) = balance joins first + balance joins second := by
  rw [balance, List.map_append, List.sum_append, balance, balance]

/-- The balance does not depend on the order. -/
theorem balance_reverse (joins : Token → Bool) (tokens : List Token) :
    balance joins tokens.reverse = balance joins tokens := by
  rw [balance, List.map_reverse, List.sum_reverse, balance]

/-- The check of a clause that succeeds has one operand left, counted from the depth at its start.
-/
theorem balance_of_checkFrom {tokens : List Token} {depth position : Nat}
    (checked : checkFrom depth position tokens = .ok ()) :
    depth + balance Token.isConnective tokens = 1 := by
  induction tokens generalizing depth position with
  | nil =>
      unfold checkFrom at checked
      split at checked
      · next single =>
        rw [single]
        rfl
      · cases checked
  | cons token rest ih =>
      rw [balance_cons]
      cases operand : token.isConnective with
      | false =>
          rw [checkFrom_operand operand] at checked
          have balanced := ih checked
          simp only [Bool.false_eq_true, if_false]
          omega
      | true =>
          cases token with
          | connective kind =>
              unfold checkFrom at checked
              split at checked
              · cases checked
              · next enough =>
                have balanced := ih checked
                simp only [if_true]
                omega
          | _ => cases operand

/-- Taking more tokens for connectives takes values away. -/
theorem balance_le {joins more : Token → Bool} (implies : ∀ token, joins token → more token)
    (tokens : List Token) : balance more tokens ≤ balance joins tokens := by
  induction tokens with
  | nil => exact Int.le_refl _
  | cons token rest ih =>
      rw [balance_cons, balance_cons]
      cases isJoin : joins token with
      | true =>
          rw [implies token isJoin]
          omega
      | false =>
          cases more token with
          | true | false =>
              simp only [Bool.false_eq_true, if_true, if_false]
              omega

/-- None are taken away only if no token is taken for a connective that was not one before. -/
theorem operand_of_balance_eq {joins more : Token → Bool}
    (implies : ∀ token, joins token → more token) {tokens : List Token}
    (same : balance more tokens = balance joins tokens) :
    ∀ token ∈ tokens, joins token = false → more token = false := by
  induction tokens with
  | nil => nofun
  | cons token rest ih =>
      have below := balance_le implies rest
      rw [balance_cons, balance_cons] at same
      cases isJoin : joins token with
      | true =>
          rw [isJoin, implies token isJoin] at same
          refine List.forall_mem_cons.2 ⟨fun operand => ?_, ih (by omega)⟩
          rw [isJoin] at operand
          cases operand
      | false =>
          rw [isJoin] at same
          cases isMore : more token with
          | true =>
              rw [isMore] at same
              simp only [Bool.false_eq_true, if_true, if_false] at same
              omega
          | false =>
              rw [isMore] at same
              exact List.forall_mem_cons.2 ⟨fun _ => isMore, ih (by omega)⟩

end Clause

/-- Symbols that tokens compile to one after another. A token that joins gives the symbol of a
connective, and every other one a well-formed program. -/
inductive Assembled (joins : Token → Bool) : List Token → Program → Prop where
  | nil : Assembled joins [] []
  | connective {token : Token} {rest : List Token} {program : Program} (kind : Connective) :
      joins token → Assembled joins rest program →
      Assembled joins (token :: rest) (kind.operator.code :: program)
  | operand {token : Token} {rest : List Token} {piece program : Program} :
      joins token = false → piece.WellFormed → Assembled joins rest program →
      Assembled joins (token :: rest) (piece ++ program)

namespace Assembled

variable {joins : Token → Bool} {tokens rest : List Token} {token : Token}
  {program other : Program}

/-- Programs of tokens one after another are assembled one after another. -/
theorem append (first : Assembled joins tokens program) (later : Assembled joins rest other) :
    Assembled joins (tokens ++ rest) (program ++ other) := by
  induction first with
  | nil => exact later
  | connective kind isJoin _ ih => exact .connective kind isJoin ih
  | operand notJoin wellFormed _ ih =>
      rw [List.append_assoc]
      exact .operand notJoin wellFormed ih

/-- A token that does not join stands for a well-formed program. -/
theorem single (notJoin : joins token = false) (wellFormed : program.WellFormed) :
    Assembled joins [token] program := by
  have assembled := Assembled.operand notJoin wellFormed .nil
  rwa [List.append_nil] at assembled

/-- A token in the place of another that counts the same. -/
theorem replace (assembled : Assembled joins [token] program) {instead : Token}
    (same : joins instead = joins token) : Assembled joins [instead] program := by
  cases assembled with
  | connective kind isJoin others =>
      cases others
      exact .connective kind (same.trans isJoin) .nil
  | operand notJoin wellFormed others =>
      cases others
      exact .operand (same.trans notJoin) wellFormed .nil

/-- Tokens and their symbols have the same balance. -/
theorem balance (assembled : Assembled joins tokens program) :
    program.balance = Clause.balance joins tokens := by
  induction assembled with
  | nil => rfl
  | @connective token rest program kind isJoin _ ih =>
      have split : Program.balance (kind.operator.code :: program) =
          Program.gain kind.operator.code + program.balance := List.sum_cons
      have gained : Program.gain kind.operator.code = -1 := by cases kind <;> rfl
      rw [split, gained, Clause.balance_cons, isJoin, ih]
      rfl
  | operand notJoin wellFormed _ ih =>
      rw [Program.balance_append, wellFormed.balance, Clause.balance_cons, notJoin, ih]
      rfl

/-- Where no operand comes out as a connective, the program passes the check that the tokens
pass. -/
theorem checkFrom (assembled : Assembled joins tokens program)
    (each : ∀ token ∈ tokens, joins token = token.isConnective)
    {depth position : Nat} (checked : Clause.checkFrom depth position tokens = .ok ())
    (other : Nat) : Program.checkFrom depth other program = .ok () := by
  induction assembled generalizing depth position other with
  | nil =>
      unfold Clause.checkFrom at checked
      unfold Program.checkFrom
      split at checked
      · next single => rw [if_pos single]
      · cases checked
  | @connective token rest program kind isJoin _ ih =>
      obtain ⟨head, others⟩ := List.forall_mem_cons.1 each
      rw [isJoin] at head
      cases token with
      | connective written =>
          unfold Clause.checkFrom at checked
          split at checked
          · cases checked
          · next enough =>
            obtain ⟨below, rfl⟩ := Nat.exists_eq_add_of_le' (Nat.not_lt.1 enough)
            have binary : kind.operator.arity = 2 := by cases kind <;> rfl
            rw [Program.checkFrom_operator binary]
            exact ih others checked _
      | _ => cases head
  | @operand token rest piece program notJoin wellFormed _ ih =>
      obtain ⟨head, others⟩ := List.forall_mem_cons.1 each
      rw [notJoin] at head
      rw [Clause.checkFrom_operand head.symm] at checked
      rw [wellFormed.checkFrom_append]
      exact ih others checked _

/-- What tokens that pass the check compile to is well formed unless an operand comes out as a
connective. -/
theorem wellFormed_iff (assembled : Assembled joins tokens program)
    (connectives : ∀ token, token.isConnective → joins token)
    (checked : Clause.check tokens = .ok ()) :
    program.WellFormed ↔ ∀ token ∈ tokens, token.isConnective = false → joins token = false := by
  constructor
  · intro wellFormed
    have counted := Clause.balance_of_checkFrom checked
    have same : Clause.balance joins tokens = Clause.balance Token.isConnective tokens := by
      rw [← assembled.balance, wellFormed.balance]
      omega
    exact Clause.operand_of_balance_eq connectives same
  · intro operands
    refine assembled.checkFrom (fun token member => ?_) checked 0
    cases isConnective : token.isConnective with
    | true => exact connectives token isConnective
    | false => exact operands token member isConnective

end Assembled

namespace Scope

/-- The branch of a fallback that is compiled, given what has been compiled. -/
def picked (scope : Scope) (start : Compiled) : Token → Token
  | .fallback first second =>
    if scope.resolves start first then scope.picked start first
    else scope.picked start second
  | token => token

/-- A token that comes out as a connective. -/
def picksConnective (scope : Scope) (start : Compiled) (token : Token) : Bool :=
  (scope.picked start token).isConnective

/-- The same definitions are there, and the same names resolve. -/
structure ResolvesAs (scope : Scope) (start compiled : Compiled) : Prop where
  definitions : compiled.definitions = start.definitions
  knows : ∀ name, scope.knows compiled.vars name = scope.knows start.vars name

variable {scope : Scope} {start compiled : Compiled}

/-- Tokens resolve as they did at the start of the compilation. -/
theorem ResolvesAs.resolves (same : scope.ResolvesAs start compiled) (token : Token) :
    scope.resolves compiled token = scope.resolves start token := by
  induction token with
  | bare name => exact same.knows name
  | comparison kind left right =>
      rw [Scope.resolves, Scope.resolves, same.knows, same.knows]
  | reference target => rw [Scope.resolves, Scope.resolves, same.definitions]
  | fallback first second ihFirst ihSecond =>
      rw [Scope.resolves, Scope.resolves, ihFirst, ihSecond]
  | macroName | constant | connective => rfl

/-- A variable that the resolver finds resolves before it is registered and after. -/
theorem knows_register {vars : VariableTable} {name : String} {quantity : Variable}
    (matched : scope.resolver scope.terms name = some quantity) (other : String) :
    scope.knows (vars.register name quantity) other = scope.knows vars other := by
  by_cases same : other = name
  · subst same
    simp only [knows, matched, Option.isSome_some, Bool.or_true]
  · rw [knows, knows, VariableTable.codeOf?_register_of_ne same]

/-- Without clauses at hand, compiling changes nothing of what resolves. -/
theorem retains_resolvesAs (alone : scope.sources = ∅) (expanding : List String)
    (start : Compiled) : scope.Retains expanding (scope.ResolvesAs start) where
  register := fun _ _ _ _ _ matched same =>
    ⟨same.definitions, fun other => (knows_register matched other).trans (same.knows other)⟩
  define := by
    intro compiled name program source
    rw [alone] at source
    exact absurd source (NameMap.not_contains_empty name)

/-- A connective picks itself. -/
theorem picksConnective_of_isConnective {token : Token} (isConnective : token.isConnective) :
    scope.picksConnective start token := by
  cases token with
  | connective kind => rfl
  | _ => cases isConnective

/-- An atom never picks a connective. -/
theorem picksConnective_of_isAtom {token : Token} (isAtom : token.IsAtom) :
    scope.picksConnective start token = false := by
  induction token with
  | connective kind => exact isAtom.elim
  | fallback first second ihFirst ihSecond =>
      rw [picksConnective, picked]
      split
      · exact ihFirst isAtom.1
      · exact ihSecond isAtom.2
  | _ => rfl

/-- What a clause of atoms compiles to is well formed. -/
theorem wellFormed_of_formed {clause : Clause} {program : Program} (formed : clause.Formed)
    (assembled : Assembled (scope.picksConnective start) clause.tokens program) :
    program.WellFormed := by
  have atoms := formed.token
  obtain ⟨tree, written, isAtom⟩ := formed
  have checked := Clause.check_tokens (isAtom.mono fun _ => Token.IsAtom.isConnective)
  rw [written] at checked
  refine (assembled.wellFormed_iff (fun _ => picksConnective_of_isConnective) checked).2 ?_
  exact fun token member operand => picksConnective_of_isAtom (atoms token member operand)

/-- A name compiles to the code of a term or a variable, never to that of an operator. -/
theorem exists_operand_of_compileName {definition name : String} {code : Int}
    {compiled next : Compiled}
    (ran : scope.compileName definition name compiled = .ok code next) :
    ∃ operand : Operand, code = operand.symbol.code := by
  rcases compileName_ok_or ran with ⟨id, _, same, _⟩ | ⟨_, index, _, _, same, _⟩
  · exact ⟨.term id, same⟩
  · exact ⟨.slot index, same⟩

/-- Each token compiles to a part of its own, a connective or a well-formed operand. -/
theorem Yields.assembled (alone : scope.sources = ∅)
    (macros : ∀ name clause, scope.macros.get? name = some clause → clause.Formed)
    (wellFormed : ∀ name definition, start.definitions.get? name = some definition →
      definition.program.WellFormed)
    {expanding inlining : List String} {tokens : List Token} {program : Program}
    {next : Compiled} (yields : scope.Yields expanding inlining tokens compiled program next)
    (same : scope.ResolvesAs start compiled) :
    Assembled (scope.picksConnective start) tokens program := by
  induction yields with
  | connective kind => exact .connective kind rfl .nil
  | constant value => exact .single rfl (Tree.wellFormed_program (.atom (.constant value)))
  | bare named =>
      obtain ⟨operand, rfl⟩ := exists_operand_of_compileName named
      exact .single rfl (Tree.wellFormed_program (.atom (.operand operand)))
  | comparison namedLeft namedRight =>
      obtain ⟨first, rfl⟩ := exists_operand_of_compileName namedLeft
      obtain ⟨second, rfl⟩ := exists_operand_of_compileName namedRight
      exact .single rfl (Tree.wellFormed_program (.atom (.comparison _ first second)))
  | macroName _ found _ ih =>
      exact .single rfl (wellFormed_of_formed (macros _ _ found) (ih same))
  | defined known =>
      rw [same.definitions] at known
      exact .single rfl (wellFormed _ _ known)
  | reference _ source =>
      rw [alone] at source
      cases source
  | first taken _ ih =>
      refine (ih same).replace ?_
      rw [same.resolves] at taken
      rw [picksConnective, picked, if_pos taken, picksConnective]
  | second passed _ ih =>
      refine (ih same).replace ?_
      rw [same.resolves] at passed
      rw [picksConnective, picked, if_neg passed, picksConnective]
  | nil => exact .nil
  | cons head _ ihHead ihTail =>
      exact (ihHead same).append (ihTail ((retains_resolvesAs alone _ start).yields head same))

end Scope

namespace Manager

/-- The macros of a manager write trees of atoms, and its definitions pass the check. -/
structure WellMade (manager : Manager) : Prop where
  macros : ∀ name clause, manager.macros.get? name = some clause → clause.Formed
  definitions : ∀ name definition, manager.definitions.get? name = some definition →
    definition.program.WellFormed

/-- A sound manager over formed clauses is well made. -/
theorem Sound.wellMade {manager : Manager} {ambient : Scope} (sound : manager.Sound ambient)
    (formed : ambient.Formed) : manager.WellMade where
  macros := (sound.part.formed formed).macros
  definitions := by
    intro name definition defined
    obtain ⟨_, clause, _, expands⟩ := sound.compiled.definitions name definition defined
    exact expands.closed.wellFormed

/-- Whatever is compiled later, also in vain, a manager stays well made. -/
theorem kept_wellMade : KeptByCompiling WellMade := by
  intro name clause manager wellMade
  obtain ⟨same, _⟩ := kept_growsTo manager name clause manager (.refl _)
  rw [same]
  exact ⟨wellMade.macros, wellMade.definitions⟩

end Manager

/-- A manager that is built from formed clauses is well made. -/
theorem Builder.wellMade_of_build {builder : Builder} {manager : Manager}
    (formed : builder.scope.Formed) (built : builder.build = .ok manager) :
    manager.WellMade := by
  obtain ⟨compiled, waypointed, transitioned, itemed, compiledAll, addedWaypoints,
    addedTransitions, addedItems, rfl⟩ := build_eq_ok_iff.1 built
  obtain ⟨waypoints, rfl, _, _⟩ := addWaypoints_ok addedWaypoints
  obtain ⟨transitions, rfl, _, _⟩ := addTransitions_ok addedTransitions
  have soundOpened := sound_openWith formed compiledAll waypoints transitions
  obtain ⟨vars, items, rfl, _, soundItemed, _⟩ := addItems_ok formed soundOpened addedItems
  exact (soundItemed.withItems _).wellMade formed

namespace Manager

/-- A clause that is accepted and compiles gives a well-formed program, unless one of its operands
comes out as a connective. -/
theorem wellFormed_compile_iff {manager next : Manager} (wellMade : manager.WellMade)
    {tokens : List Token} {clause : Clause} (accepted : Clause.ofTokens tokens = .ok clause)
    {name : String} {definition : Definition}
    (ran : compile name clause manager = .ok definition next) :
    definition.program.WellFormed ↔ ∀ token ∈ tokens, token.isConnective = false →
      manager.scope.picksConnective ⟨manager.vars, manager.definitions⟩ token = false := by
  obtain ⟨⟨⟩, checked, rfl⟩ := Except.map_eq_ok_iff.1 accepted
  obtain ⟨compiled, compiledClause, rfl⟩ := compile_eq_ok_iff.1 ran
  obtain ⟨program, middle, compiledTokens, returned⟩ := EStateM.bind_eq_ok_iff.1 compiledClause
  obtain ⟨rfl, rfl⟩ := EStateM.pure_eq_ok_iff.1 returned
  have assembled := (Scope.yields_of_compileTokens compiledTokens).assembled rfl wellMade.macros
    wellMade.definitions ⟨rfl, fun _ => rfl⟩
  exact assembled.wellFormed_iff (fun _ => Scope.picksConnective_of_isConnective) checked

/-- A connective always resolves. -/
theorem compile_fallback (kind : Connective) (token : Token) (name : String) (manager : Manager) :
    compile name ⟨[.fallback (.connective kind) token]⟩ manager =
      .ok ⟨name, [kind.operator.code]⟩ manager := by
  have compiled : manager.scope.compileClause name ⟨[.fallback (.connective kind) token]⟩
      ⟨manager.vars, manager.definitions⟩ =
        .ok ⟨name, [kind.operator.code]⟩ ⟨manager.vars, manager.definitions⟩ := by
    simp only [Scope.compileClause, Scope.compileTokens, Scope.compileToken]
    rfl
  exact compile_eq_ok_iff.2 ⟨_, compiled, rfl⟩

/-- A connective in a fallback does no harm where it is never taken. -/
theorem wellFormed_compile_constants : ∃ manager clause next,
    Builder.empty.build = .ok manager ∧
      Clause.ofTokens [.constant true, .fallback (.constant false) (.connective .and),
        .connective .or] = .ok clause ∧
      compile "Gate" clause manager = .ok ⟨"Gate", [-3, -4, -2]⟩ next ∧
      Program.WellFormed [-3, -4, -2] := by
  obtain ⟨manager, built⟩ : ∃ manager, Builder.empty.build = .ok manager := ⟨_, rfl⟩
  have accepted : Clause.ofTokens [.constant true,
      .fallback (.constant false) (.connective .and), .connective .or] = .ok ⟨_⟩ := rfl
  have compiled : manager.scope.compileClause "Gate" ⟨[.constant true,
      .fallback (.constant false) (.connective .and), .connective .or]⟩
      ⟨manager.vars, manager.definitions⟩ =
        .ok ⟨"Gate", [-3, -4, -2]⟩ ⟨manager.vars, manager.definitions⟩ := by
    simp only [Scope.compileClause, Scope.compileTokens, Scope.compileToken]
    rfl
  have ran := compile_eq_ok_iff.2 ⟨_, compiled, rfl⟩
  have formed : Builder.empty.scope.Formed := by
    constructor
    · intro _ _ found
      cases found
    · intro _ _ found
      cases found
  have wellMade := Builder.wellMade_of_build formed built
  refine ⟨manager, _, _, built, accepted, ran, (wellFormed_compile_iff wellMade accepted ran).2 ?_⟩
  simp [Scope.picksConnective, Scope.picked, Scope.resolves, Token.isConnective]

/-- An accepted clause with a connective for an operand: the only symbol of its program finds no
operands. -/
theorem compile_misfit : ∃ manager, Builder.empty.build = .ok manager ∧
    ∃ clause, Clause.ofTokens [.fallback (.connective .and) (.constant true)] = .ok clause ∧
      ∃ definition next, compile "Gate" clause manager = .ok definition next ∧
        ¬ definition.program.WellFormed := by
  exact ⟨_, rfl, _, rfl, _, _, compile_fallback .and (.constant true) "Gate" _, nofun⟩

end Manager

end Randomizer
