import Randomizer.Proofs.Logic.Balance
import Randomizer.Proofs.Logic.Elementary
import Randomizer.Proofs.Logic.Expression
import Randomizer.Proofs.Logic.Recovery

/-!
Logic recovered from checked programs. A comparison is recovered from the last two tokens, whatever
they are, and those are its operands unless one of them is joined logic. So the recovered clause
passes the check just when no comparison has such an operand. Where only operands are compared and
their names resolve as they did, the clause compiles again to the same values.
-/

namespace Randomizer

/-- A comparison takes its operands from the latest tokens, whatever lies below them. -/
theorem Manager.comparisonToken_append {latest : List Token} (two : 2 ≤ latest.length)
    (kind : Comparison) (tokens : List Token) :
    comparisonToken kind (latest ++ tokens) = comparisonToken kind latest ++ tokens := by
  match latest, two with
  | right :: left :: rest, _ => rfl

namespace Expression

variable {expression : Expression}

/-- The tokens that an expression is recovered as, the latest on top. -/
def recovered (manager : Manager) : Expression → List Token
  | operand content => [.bare (manager.operandText content)]
  | constant value => [.constant value]
  | join kind left right => .connective kind :: (right.recovered manager ++ left.recovered manager)
  | compare kind left right =>
    Manager.comparisonToken kind (right.recovered manager ++ left.recovered manager)

/-- The latest token is a connective where logic is joined. -/
theorem exists_recovered_eq (manager : Manager) (expression : Expression) :
    ∃ token rest, expression.recovered manager = token :: rest ∧
      token.isConnective = expression.isJoin := by
  cases expression with
  | operand | constant | join => exact ⟨_, _, rfl, rfl⟩
  | compare kind left right =>
      rw [recovered]
      obtain ⟨last, others, ofRight, _⟩ := exists_recovered_eq manager right
      obtain ⟨first, before, ofLeft, _⟩ := exists_recovered_eq manager left
      rw [ofRight, ofLeft]
      cases others with
      | nil | cons => exact ⟨_, _, rfl, rfl⟩

/-- Two operands are recovered as at least two tokens. -/
theorem two_le_length_recovered (manager : Manager) (left right : Expression) :
    2 ≤ (right.recovered manager ++ left.recovered manager).length := by
  obtain ⟨last, others, ofRight, _⟩ := exists_recovered_eq manager right
  obtain ⟨first, before, ofLeft, _⟩ := exists_recovered_eq manager left
  rw [ofRight, ofLeft, List.length_append, List.length_cons, List.length_cons]
  omega

/-- Recovering the program of an expression pushes the tokens of the expression. -/
theorem foldl_recoverSymbol_program (manager : Manager) (expression : Expression)
    (tokens : List Token) : expression.program.foldl manager.recoverSymbol tokens =
      expression.recovered manager ++ tokens := by
  induction expression generalizing tokens with
  | operand content => exact manager.recoverSymbol_operand tokens content
  | constant value =>
      cases value with
      | true => exact manager.recoverSymbol_operator tokens .always
      | false => exact manager.recoverSymbol_operator tokens .never
  | join kind left right ihLeft ihRight =>
      rw [program, List.foldl_append, List.foldl_append, ihLeft, ihRight, List.foldl_cons,
        List.foldl_nil, Manager.recoverSymbol_operator, recovered, List.cons_append,
        List.append_assoc]
      cases kind <;> rfl
  | compare kind left right ihLeft ihRight =>
      have two := two_le_length_recovered manager left right
      rw [program, List.foldl_append, List.foldl_append, ihLeft, ihRight, List.foldl_cons,
        List.foldl_nil, Manager.recoverSymbol_operator, recovered,
        ← Manager.comparisonToken_append two, List.append_assoc]
      cases kind <;> rfl

/-- The clause recovered from a program has the tokens of the program's expression. -/
theorem clauseOf_program (manager : Manager) {definition : Definition}
    (writes : definition.program = expression.program) :
    manager.clauseOf definition = ⟨(expression.recovered manager).reverse⟩ := by
  rw [Manager.clauseOf, writes, foldl_recoverSymbol_program, List.append_nil]

/-- A level expression is recovered as one token unless it is joined. -/
theorem Level.exists_recovered_eq (level : expression.Level) (alone : expression.isJoin = false)
    (manager : Manager) :
    ∃ token, expression.recovered manager = [token] ∧ token.isConnective = false := by
  induction expression with
  | operand | constant => exact ⟨_, rfl, rfl⟩
  | join => cases alone
  | compare kind left right ihLeft ihRight =>
      obtain ⟨⟨levelLeft, leftAlone⟩, levelRight, rightAlone⟩ := level
      obtain ⟨first, ofLeft, _⟩ := ihLeft levelLeft leftAlone
      obtain ⟨second, ofRight, _⟩ := ihRight levelRight rightAlone
      rw [recovered, ofLeft, ofRight]
      exact ⟨_, rfl, rfl⟩

/-- A level expression is recovered as a tree. -/
theorem Level.exists_tree (level : expression.Level) (manager : Manager) :
    ∃ tree : Tree Token, tree.Proper ∧ tree.tokens = (expression.recovered manager).reverse := by
  induction expression with
  | operand content => exact ⟨.atom (.bare (manager.operandText content)), rfl, rfl⟩
  | constant value => exact ⟨.atom (.constant value), rfl, rfl⟩
  | join kind left right ihLeft ihRight =>
      obtain ⟨first, properFirst, ofLeft⟩ := ihLeft level.1
      obtain ⟨second, properSecond, ofRight⟩ := ihRight level.2
      refine ⟨.join kind first second, ⟨properFirst, properSecond⟩, ?_⟩
      rw [Tree.tokens_join, ofLeft, ofRight, recovered, List.reverse_cons, List.reverse_append]
  | compare =>
      obtain ⟨token, whole, operand⟩ := Level.exists_recovered_eq level rfl manager
      rw [whole]
      exact ⟨.atom token, operand, rfl⟩

/-- Recovered tokens add a value at least. They add one only where the two tokens that each
comparison takes are its operands. -/
theorem level_of_balance (manager : Manager) (expression : Expression) :
    1 ≤ Clause.balance Token.isConnective (expression.recovered manager) ∧
      (Clause.balance Token.isConnective (expression.recovered manager) = 1 →
        expression.Level) := by
  induction expression with
  | operand | constant => exact ⟨Int.le_refl 1, fun _ => trivial⟩
  | join kind left right ihLeft ihRight =>
      obtain ⟨leastLeft, levelLeft⟩ := ihLeft
      obtain ⟨leastRight, levelRight⟩ := ihRight
      rw [recovered, Clause.balance_cons, Clause.balance_append]
      simp only [Token.isConnective, if_true]
      exact ⟨by omega, fun one => ⟨levelLeft (by omega), levelRight (by omega)⟩⟩
  | compare kind left right ihLeft ihRight =>
      obtain ⟨leastLeft, levelLeft⟩ := ihLeft
      obtain ⟨leastRight, levelRight⟩ := ihRight
      obtain ⟨last, others, ofRight, lastJoins⟩ := exists_recovered_eq manager right
      obtain ⟨first, before, ofLeft, firstJoins⟩ := exists_recovered_eq manager left
      cases others with
      | nil =>
          have total : Clause.balance Token.isConnective
              ((compare kind left right).recovered manager) =
                1 + Clause.balance Token.isConnective before := by
            rw [recovered, ofRight, ofLeft]
            exact Clause.balance_cons _ _ _
          have ofLast := Clause.balance_cons_le Token.isConnective last []
          have ofFirst := Clause.balance_cons_le Token.isConnective first before
          have empty : Clause.balance Token.isConnective [] = 0 := rfl
          rw [ofRight] at leastRight levelRight
          rw [ofLeft] at leastLeft levelLeft
          rw [total]
          refine ⟨by omega, fun one => ?_⟩
          refine ⟨⟨levelLeft (by omega), ?_⟩, levelRight (by omega), ?_⟩
          · rw [← firstJoins]
            exact Clause.operand_of_balance_lt before (by omega)
          · rw [← lastJoins]
            exact Clause.operand_of_balance_lt [] (by omega)
      | cons second rest =>
          have total : Clause.balance Token.isConnective
              ((compare kind left right).recovered manager) =
                1 + (Clause.balance Token.isConnective rest +
                  Clause.balance Token.isConnective (left.recovered manager)) := by
            rw [recovered, ofRight, ← Clause.balance_append]
            exact Clause.balance_cons _ _ _
          have ofLast := Clause.balance_cons_le Token.isConnective last (second :: rest)
          have ofSecond := Clause.balance_cons_le Token.isConnective second rest
          rw [ofRight] at leastRight levelRight
          rw [total]
          refine ⟨by omega, fun one => ?_⟩
          have alone : right.isJoin = false := by
            rw [← lastJoins]
            exact Clause.operand_of_balance_lt (second :: rest) (by omega)
          obtain ⟨token, single, _⟩ := (levelRight (by omega)).exists_recovered_eq alone manager
          rw [ofRight] at single
          cases single

/-- The recovered clause passes the check just when no comparison has joined logic for an
operand. -/
theorem check_clauseOf_iff (manager : Manager) {definition : Definition}
    (writes : definition.program = expression.program) :
    Clause.check (manager.clauseOf definition).tokens = .ok () ↔ expression.Level := by
  rw [clauseOf_program manager writes]
  constructor
  · intro checked
    have balanced := Clause.balance_of_checkFrom checked
    rw [Clause.balance_reverse] at balanced
    exact (level_of_balance manager expression).2 (by omega)
  · intro level
    obtain ⟨tree, proper, written⟩ := level.exists_tree manager
    rw [← written]
    exact Clause.check_tokens proper

end Expression

namespace Scope

variable {scope : Scope} {compiled next : Compiled} {expanding inlining : List String}

/-- A name compiles to an operand that it stands for. -/
theorem names_of_compileName (found : next.vars.FoundBy scope.terms scope.resolver)
    {definition name : String} {code : Int}
    (ran : scope.compileName definition name compiled = .ok code next) :
    ∃ operand : Operand, code = operand.symbol.code ∧ scope.Names next.vars name operand := by
  rcases compileName_ok_or ran with
    ⟨id, isTerm, same, _⟩ | ⟨notTerm, index, quantity, registered, same, _⟩
  · exact ⟨.term id, same, .term isTerm⟩
  · obtain ⟨_, matched⟩ := found.matched _ (List.mem_of_getElem? registered)
    exact ⟨.slot index, same, .slot notTerm matched registered⟩

/-- Elementary tokens compile to what they are replaced by, whatever the definitions are. -/
theorem Yields.renders {tokens : List Token} {program : Program}
    (yields : scope.Yields expanding inlining tokens compiled program next)
    (elementary : ∀ token ∈ tokens, scope.Elementary token)
    (found : compiled.vars.FoundBy scope.terms scope.resolver) :
    scope.Renders next.vars tokens program := by
  have keepsFound := scope.retains_foundBy expanding
  have slots (vars : VariableTable) := scope.retains_precedes expanding vars
  induction yields with
  | connective kind => exact .connective kind .nil
  | constant value => exact .atom (.constant value) .nil
  | bare named =>
      have foundNext := (keepsFound.compileName _ _).ok named found
      obtain ⟨operand, rfl, names⟩ := names_of_compileName foundNext named
      exact .atom (.bare names) .nil
  | comparison namedLeft namedRight =>
      have foundMiddle := (keepsFound.compileName _ _).ok namedLeft found
      have foundNext := (keepsFound.compileName _ _).ok namedRight foundMiddle
      have precedes := ((slots _).compileName _ _).ok namedRight (.refl _)
      obtain ⟨first, rfl, namesLeft⟩ := names_of_compileName foundMiddle namedLeft
      obtain ⟨second, rfl, namesRight⟩ := names_of_compileName foundNext namedRight
      exact .atom (.comparison (namesLeft.mono precedes) namesRight) .nil
  | macroName | defined | reference | first | second =>
      exact (elementary _ List.mem_cons_self).elim
  | nil => exact .nil
  | cons head tail ihHead ihTail =>
      obtain ⟨elementaryHead, elementaryTail⟩ := List.forall_mem_cons.1 elementary
      have renders := ihHead (List.forall_mem_singleton.2 elementaryHead) found keepsFound slots
      have rendersTail :=
        ihTail elementaryTail (keepsFound.yields head found) keepsFound slots
      exact (renders.mono ((slots _).yields tail (.refl _))).append rendersTail

end Scope

def Primitive.operands : Primitive → List Operand
  | constant _ => []
  | operand content => [content]
  | comparison _ left right => [left, right]

/-- The operands of a symbol occur in its program. -/
theorem Primitive.code_mem_program {primitive : Primitive} {operand : Operand}
    (member : operand ∈ primitive.operands) : operand.symbol.code ∈ primitive.program := by
  cases primitive with
  | constant value => cases member
  | operand content =>
      rw [List.mem_singleton.1 member]
      exact List.mem_singleton_self _
  | comparison kind left right =>
      rcases List.mem_pair.1 member with rfl | rfl
      · exact List.mem_cons_self
      · exact List.mem_cons_of_mem _ List.mem_cons_self

/-- What holds of the operands in a program holds of those in the tree that it writes. -/
theorem Tree.all_operands {property : Operand → Prop} {tree : Tree Primitive}
    (each : ∀ operand : Operand, operand.symbol.code ∈ tree.program → property operand) :
    tree.All fun primitive => ∀ operand ∈ primitive.operands, property operand := by
  induction tree with
  | atom primitive => exact fun operand member => each operand (Primitive.code_mem_program member)
  | join kind left right ihLeft ihRight =>
      have program : (Tree.join kind left right).program =
          left.program ++ right.program ++ [kind.operator.code] := rfl
      rw [program] at each
      exact ⟨ihLeft fun operand member => each operand (by simp [member]),
        ihRight fun operand member => each operand (by simp [member])⟩

namespace Manager

variable {manager : Manager}

/-- A manager that logic was compiled on has its variables as the resolver finds them. -/
theorem Extends.foundBy {later : Manager} (grown : manager.Extends later) :
    later.vars.FoundBy later.terms later.resolver := by
  rw [grown.1.1]
  exact grown.2

/-- The name that an operand is recovered under stands for what the operand reads. -/
def Restores (manager : Manager) (operand : Operand) : Prop :=
  ∀ requester reading,
    manager.scope.nameValue? requester reading (manager.operandText operand) =
      some (operand.value (manager.vars.inputs requester reading))

/-- A term of the table is restored under its name. -/
theorem restores_term {id : TermId} (within : id.index < manager.terms.size) :
    manager.Restores (.term id) := by
  intro requester reading
  have named : manager.scope.terms.nameOf? id = some manager.terms.names[id.index] :=
    List.getElem?_eq_getElem within
  have found := TermTable.nameOf?_eq_some_iff.1 named
  rw [operandText_term rfl found]
  exact (Scope.Names.term found).nameValue? requester reading

/-- Amounts come back where no term is written like one. -/
theorem restores_slot (found : manager.vars.FoundBy manager.terms manager.resolver)
    (resolver : manager.resolver = Resolver.integers)
    (numbers : ∀ amount, Amount.InRange amount → toString amount ∉ manager.terms.names)
    {index : Nat} (within : index < manager.vars.size) : manager.Restores (.slot index) := by
  have registered : manager.vars.registrations[index]? = some manager.vars.registrations[index] :=
    List.getElem?_eq_getElem within
  obtain ⟨notTerm, matched⟩ := found.matched _ (List.mem_of_getElem? registered)
  have names : manager.scope.Names manager.vars manager.vars.registrations[index].spelling
      (.slot index) := .slot notTerm matched registered
  have integers : manager.scope.resolver = Resolver.integers := resolver
  have clear : manager.ClearOperand (.slot index) := by
    obtain ⟨amount, inRange, _, written⟩ := operandText_amount integers matched registered
    rw [ClearOperand, written]
    exact numbers amount inRange
  exact (stands_operandText integers rfl clear names).value

section Tree

variable {tree : Tree Primitive}
  (restored : tree.All fun primitive => ∀ operand ∈ primitive.operands, manager.Restores operand)
include restored

/-- The recovered tokens mean the value of the expression. -/
theorem means_of_restores (requester : String) (reading : Reading) :
    manager.scope.Means requester reading (tree.map manager.tokenOf)
      (tree.value (Primitive.value (manager.vars.inputs requester reading))) := by
  induction tree with
  | atom primitive =>
      cases primitive with
      | constant value => exact .constant value
      | operand content => exact .bare (restored content (by simp [Primitive.operands]) _ _)
      | comparison kind left right =>
          exact .comparison (restored left (by simp [Primitive.operands]) _ _)
            (restored right (by simp [Primitive.operands]) _ _)
  | join kind left right ihLeft ihRight => exact .join (ihLeft restored.1) (ihRight restored.2)

/-- All recovered tokens are elementary. -/
theorem elementary_of_restores :
    ∀ token ∈ (tree.map manager.tokenOf).tokens, manager.scope.Elementary token := by
  have resolves {operand : Operand} (restores : manager.Restores operand) :
      manager.scope.Resolves (manager.operandText operand) :=
    Scope.resolves_of_nameValue? (restores "" fun _ => 0)
  have atoms : (tree.map manager.tokenOf).All manager.scope.Elementary := by
    refine Tree.all_map.2 (restored.mono fun primitive ofOperands => ?_)
    cases primitive with
    | constant value => trivial
    | operand content => exact resolves (ofOperands content (by simp [Primitive.operands]))
    | comparison kind left right =>
        exact ⟨resolves (ofOperands left (by simp [Primitive.operands])),
          resolves (ofOperands right (by simp [Primitive.operands]))⟩
  intro token member
  cases operand : token.isConnective with
  | true =>
      cases token with
      | connective kind => trivial
      | _ => cases operand
  | false => exact Tree.forall_mem_tokens_of_all _ atoms token member operand

end Tree

/-- A tree of compiled logic compiles again to its values. -/
theorem exists_compile_clauseOf (found : manager.vars.FoundBy manager.terms manager.resolver)
    {definition : Definition} {tree : Tree Primitive} (writes : definition.program = tree.program)
    (restores : ∀ operand : Operand, operand.symbol.code ∈ definition.program →
      manager.Restores operand) :
    ∃ again next, compile definition.name (manager.clauseOf definition) manager =
        .ok again next ∧
      ∀ reading, again.holds next.vars reading = definition.holds manager.vars reading := by
  have foundStart : VariableTable.FoundBy manager.scope.terms manager.scope.resolver
      (Compiled.vars ⟨manager.vars, manager.definitions⟩) := found
  rw [writes] at restores
  have restored := Tree.all_operands restores
  have elementary := elementary_of_restores restored
  have formed : Clause.Formed ⟨(tree.map manager.tokenOf).tokens⟩ := by
    refine ⟨_, rfl, Tree.all_map.2 (Tree.all_of_forall (fun primitive => ?_) tree)⟩
    cases primitive with
    | constant | operand | comparison => trivial
  rw [manager.clauseOf_program writes]
  obtain ⟨again, next, ran⟩ := exists_compile elementary definition.name
  refine ⟨again, next, ran, fun reading => ?_⟩
  obtain ⟨compiled, compiledClause, rfl⟩ := compile_eq_ok_iff.1 ran
  obtain ⟨program, middle, compiledTokens, returned⟩ := EStateM.bind_eq_ok_iff.1 compiledClause
  obtain ⟨rfl, rfl⟩ := EStateM.pure_eq_ok_iff.1 returned
  have renders := (Scope.yields_of_compileTokens compiledTokens).renders elementary foundStart
  have means := (Scope.Renders.clauseExpands formed renders).means definition.name reading
  have same := means.unique ⟨_, rfl, means_of_restores restored definition.name reading⟩
  rw [Definition.holds, Definition.holds, Definition.value, Definition.value, writes,
    Tree.value_program, same]

/-- A checked program writes one expression, and its clause passes the check just when no
comparison has joined logic for an operand. Where only operands are compared, and the names of the
variables resolve as they did, the clause compiles again to a definition that holds when the program
does. -/
theorem exists_expression_of_ofProgram
    (found : manager.vars.FoundBy manager.terms manager.resolver)
    {name : String} {program : Program} {definition : Definition}
    (taken : Definition.ofProgram name program = .ok definition)
    (within : ∀ code ∈ program, ∀ symbol, Symbol.ofCode? code = some symbol →
      symbol.Within manager.terms manager.vars)
    (restores : ∀ index, (Symbol.slot index).code ∈ program → manager.Restores (.slot index)) :
    ∃ expression : Expression, expression.program = program ∧
      (∀ other : Expression, other.program = program → other = expression) ∧
      (Clause.check (manager.clauseOf definition).tokens = .ok () ↔ expression.Level) ∧
      (expression.Simple → ∃ again next,
        compile name (manager.clauseOf definition) manager = .ok again next ∧
          ∀ reading, again.holds next.vars reading = definition.holds manager.vars reading) := by
  unfold Definition.ofProgram at taken
  split at taken
  · next checked =>
    cases taken
    obtain ⟨expression, rfl⟩ := Expression.exists_of_wellFormed checked
    refine ⟨expression, rfl, fun other same => Expression.program_injective same,
      Expression.check_clauseOf_iff manager rfl, fun simple => ?_⟩
    obtain ⟨tree, writes⟩ := simple.exists_tree
    have writesProgram : (Definition.mk name expression.program).program = tree.program :=
      writes.symm
    refine exists_compile_clauseOf found writesProgram fun operand member => ?_
    cases operand with
    | term id => exact restores_term (within _ member (.term id) (Symbol.ofCode?_code _))
    | slot index => exact restores index member
  · cases taken

/-- A recovered clause with a comparison compiles again, to a definition with the same value. -/
theorem exists_expression_of_ofProgram_lamp : ∃ earlier manager again next,
    (Builder.empty.addTerm "A" |>.addTerm "B").build = .ok earlier ∧
      compile "Gate" ⟨[.comparison .greater "A" "1"]⟩ earlier =
        .ok ⟨"Gate", [0, -100, -7]⟩ manager ∧
      Clause.check (manager.clauseOf ⟨"Lamp", [0, -100, -7, 1, -2]⟩).tokens = .ok () ∧
      compile "Lamp" (manager.clauseOf ⟨"Lamp", [0, -100, -7, 1, -2]⟩) manager = .ok again next ∧
      ∀ reading, again.holds next.vars reading =
        Definition.holds ⟨"Lamp", [0, -100, -7, 1, -2]⟩ manager.vars reading := by
  obtain ⟨earlier, built, terms, resolver, vars⟩ : ∃ earlier : Manager,
      (Builder.empty.addTerm "A" |>.addTerm "B").build = .ok earlier ∧
      earlier.terms = (Builder.empty.addTerm "A" |>.addTerm "B").terms ∧
      earlier.resolver = Resolver.integers ∧ earlier.vars = ∅ := ⟨_, rfl, rfl, rfl, rfl⟩
  have isTerm : earlier.terms.idOf? "A" = some ⟨0⟩ := by
    rw [terms]
    rfl
  have notTerm : earlier.terms.idOf? "1" = none := by
    rw [terms]
    rfl
  have amount : Amount.ofText? "1" = some 1 := by decide
  have matched : earlier.resolver earlier.terms "1" = some (.constant 1) := by
    rw [resolver, Resolver.integers, amount]
    rfl
  have compiled : earlier.scope.compileClause "Gate" ⟨[.comparison .greater "A" "1"]⟩
      ⟨earlier.vars, earlier.definitions⟩ =
        .ok ⟨"Gate", [0, -100, -7]⟩ ⟨⟨[⟨"1", .constant 1⟩]⟩, earlier.definitions⟩ := by
    simp only [Scope.compileClause, Scope.compileTokens, Scope.compileToken, Scope.compileName,
      scope, isTerm, notTerm, matched, vars]
    rfl
  have ran := compile_eq_ok_iff.2 ⟨_, compiled, rfl⟩
  have foundEarlier : earlier.vars.FoundBy earlier.terms earlier.resolver := by
    rw [terms, resolver]
    exact Builder.foundBy_of_build built
  have found := ((kept_extends earlier "Gate" _).ok ran ⟨.refl _, foundEarlier⟩).foundBy
  have numbers (amount : Int) (_ : Amount.InRange amount) :
      toString amount ∉ earlier.terms.names := by
    have letters : ∀ name ∈ (Builder.empty.addTerm "A" |>.addTerm "B").terms.names,
        Lexeme.HasLetter name := by decide
    rw [terms]
    exact fun member => Amount.toString_ne_of_hasLetter (letters _ member) amount rfl
  have within : ∀ code ∈ ([0, -100, -7, 1, -2] : Program), ∀ symbol,
      Symbol.ofCode? code = some symbol →
        symbol.Within earlier.terms ⟨[⟨"1", .constant 1⟩]⟩ := by
    rw [terms]
    intro code member symbol meaning
    simp only [List.mem_cons, List.not_mem_nil, or_false] at member
    rcases member with rfl | rfl | rfl | rfl | rfl <;> cases meaning <;> decide
  have taken : Definition.ofProgram "Lamp" [0, -100, -7, 1, -2] =
      .ok ⟨"Lamp", [0, -100, -7, 1, -2]⟩ := rfl
  obtain ⟨expression, _, only, checked, compiles⟩ :=
    exists_expression_of_ofProgram found taken within fun index member =>
      restores_slot found resolver numbers
        (within _ member (.slot index) (Symbol.ofCode?_code _))
  have simple : expression.Simple := by
    rw [← only (.join .or (.compare .greater (.operand (.term ⟨0⟩)) (.operand (.slot 0)))
      (.operand (.term ⟨1⟩))) rfl]
    exact ⟨trivial, trivial⟩
  obtain ⟨again, next, ranAgain, same⟩ := compiles simple
  exact ⟨earlier, _, again, next, built, ran, checked.2 simple.level, ranAgain, same⟩

/-- A comparison of joined logic takes the connective for an operand, and the terms that it joins
stay behind. -/
theorem check_clauseOf_joined : ∃ manager definition,
    (Builder.empty.addTerm "A" |>.addTerm "B" |>.addTerm "C").build = .ok manager ∧
      Definition.ofProgram "Gate" [0, 1, -1, 2, -5] = .ok definition ∧
      (∀ code ∈ definition.program, ∀ symbol, Symbol.ofCode? code = some symbol →
        symbol.Within manager.terms manager.vars) ∧
      manager.clauseOf definition = ⟨[.bare "A", .bare "B", .comparison .equal "+" "C"]⟩ ∧
      Clause.check (manager.clauseOf definition).tokens = .error 3 := by
  refine ⟨_, _, rfl, rfl, ?_, rfl, rfl⟩
  intro code member symbol meaning
  simp only [List.mem_cons, List.not_mem_nil, or_false] at member
  rcases member with rfl | rfl | rfl | rfl | rfl <;> cases meaning <;> decide

end Manager

end Randomizer
