import Randomizer.Proofs.Logic.Item
import Randomizer.Proofs.Logic.Printing
import Randomizer.Proofs.Text

namespace Randomizer

namespace Manager

def operandText (manager : Manager) (operand : Operand) : String :=
  manager.symbolText operand.symbol.code

/-- The token that an atom of compiled logic is recovered as. -/
def tokenOf (manager : Manager) : Primitive → Token
  | .constant value => .constant value
  | .operand content => .bare (manager.operandText content)
  | .comparison kind left right =>
    .comparison kind (manager.operandText left) (manager.operandText right)

/-- The code of an operand is recovered as its name. -/
theorem recoverSymbol_operand (manager : Manager) (tokens : List Token) (operand : Operand) :
    manager.recoverSymbol tokens operand.symbol.code =
      .bare (manager.operandText operand) :: tokens := by
  cases operand <;> simp only [recoverSymbol, operandText, Operand.symbol, Symbol.ofCode?_code]

/-- The code of an operator is recovered by the kind that it is of. -/
theorem recoverSymbol_operator (manager : Manager) (tokens : List Token) (operator : Operator) :
    manager.recoverSymbol tokens operator.code =
      match operator with
      | .and => .connective .and :: tokens
      | .or => .connective .or :: tokens
      | .always => .constant true :: tokens
      | .never => .constant false :: tokens
      | .equal => comparisonToken .equal tokens
      | .less => comparisonToken .less tokens
      | .greater => comparisonToken .greater tokens := by
  have decoded := Symbol.ofCode?_code (.operator operator)
  simp only [Symbol.code] at decoded
  rw [recoverSymbol, decoded]
  cases operator <;> rfl

/-- The program of a primitive is recovered as one token. -/
theorem foldl_recoverSymbol_primitive (manager : Manager) (tokens : List Token)
    (primitive : Primitive) :
    primitive.program.foldl manager.recoverSymbol tokens =
      manager.tokenOf primitive :: tokens := by
  cases primitive with
  | constant value =>
      cases value with
      | true => exact manager.recoverSymbol_operator tokens .always
      | false => exact manager.recoverSymbol_operator tokens .never
  | operand content => exact manager.recoverSymbol_operand tokens content
  | comparison kind left right =>
      simp only [Primitive.program, List.foldl_cons, List.foldl_nil, recoverSymbol_operand,
        recoverSymbol_operator]
      cases kind <;> rfl

/-- The program of a tree is recovered as the tokens of the tree, the last first. -/
theorem foldl_recoverSymbol (manager : Manager) (tree : Tree Primitive) (tokens : List Token) :
    tree.program.foldl manager.recoverSymbol tokens =
      (tree.map manager.tokenOf).tokens.reverse ++ tokens := by
  induction tree generalizing tokens with
  | atom primitive => exact manager.foldl_recoverSymbol_primitive tokens primitive
  | join kind left right ihLeft ihRight =>
      have program : (Tree.join kind left right).program =
          left.program ++ right.program ++ [kind.operator.code] := rfl
      rw [program, List.foldl_append, List.foldl_append, ihLeft, ihRight, List.foldl_cons,
        List.foldl_nil, recoverSymbol_operator, Tree.map, Tree.tokens_join]
      cases kind <;> simp [Connective.operator]

/-- The clause of a program that writes a tree is the tree with its operands named. -/
theorem clauseOf_program (manager : Manager) {definition : Definition} {tree : Tree Primitive}
    (writes : definition.program = tree.program) :
    manager.clauseOf definition = ⟨(tree.map manager.tokenOf).tokens⟩ := by
  rw [clauseOf, writes, foldl_recoverSymbol, List.append_nil, List.reverse_reverse]

end Manager

namespace Primitive

/-- An atom whose operands are what names stand for, as logic text can name them. -/
def Named (scope : Scope) (vars : VariableTable) : Primitive → Prop
  | constant _ => True
  | operand content => ∃ name, scope.Names vars name content ∧ Lexeme.IsName name ∧
      name ∉ Token.keywords
  | comparison _ left right => (∃ name, scope.Names vars name left ∧ Lexeme.IsName name) ∧
      ∃ name, scope.Names vars name right ∧ Lexeme.IsName name

end Primitive

namespace Scope

variable {scope : Scope} {vars : VariableTable}

/-- What readable logic is replaced by has named operands. -/
theorem Expands.named (readable : scope.Readable) {tree : Tree Token} {compiled : Tree Primitive}
    (expands : scope.Expands vars tree compiled) (atoms : tree.All Token.Readable) :
    compiled.All (Primitive.Named scope vars) := by
  have inner {clause : Clause} {tree : Tree Token} {compiled : Tree Primitive}
      (ofText : clause.Readable) (written : tree.tokens = clause.tokens)
      (expands : scope.Expands vars tree compiled) : tree.All Token.Readable := by
    have proper : tree.Proper := (expands.means "" fun _ => 0).proper
    exact Tree.all_of_forall_mem_tokens proper (written ▸ ofText.token)
  induction expands with
  | bare names => exact ⟨_, names, atoms.1, atoms.2⟩
  | comparison left right => exact ⟨⟨_, left, atoms.1⟩, _, right, atoms.2⟩
  | constant value => trivial
  | macroName found written expandsInner ih =>
      exact ih (inner (readable.macros _ _ found) written expandsInner)
  | reference found written expandsInner ih =>
      exact ih (inner (readable.sources _ _ found) written expandsInner)
  | first _ _ ih => exact ih atoms.1
  | second _ _ ih => exact ih atoms.2
  | join _ _ ihLeft ihRight => exact ⟨ihLeft atoms.1, ihRight atoms.2⟩

/-- The program of a readable clause writes a tree with named operands. -/
theorem ClauseExpands.named (readable : scope.Readable) {clause : Clause} {program : Program}
    (ofText : clause.Readable) (expands : scope.ClauseExpands vars clause program) :
    ∃ tree : Tree Primitive, program = tree.program ∧ tree.All (Primitive.Named scope vars) := by
  obtain ⟨tree, compiled, written, expandsTree, same⟩ := expands
  have proper : tree.Proper := (expandsTree.means "" fun _ => 0).proper
  have atoms := Tree.all_of_forall_mem_tokens proper (written ▸ ofText.token)
  exact ⟨compiled, same, expandsTree.named readable atoms⟩

/-- Only amounts are variables, and amounts, terms and macros have different names. -/
structure Unambiguous (scope : Scope) : Prop where
  resolver : scope.resolver = Resolver.integers
  numbers : ∀ amount, Amount.InRange amount → toString amount ∉ scope.terms.names
  macroTerms : ∀ name, scope.macros.contains name → name ∉ scope.terms.names
  macroNumbers : ∀ name, scope.macros.contains name →
    ∀ amount, Amount.InRange amount → name ≠ toString amount

end Scope

/-- A text with a character that no amount is written with. -/
def Lexeme.HasLetter (text : String) : Prop :=
  ∃ char ∈ text.toList, ¬ (char.isDigit ∨ char = '-')

/-- A text has a letter if some character is neither a digit nor a minus. -/
theorem Lexeme.hasLetter_iff_any {text : String} :
    text.toList.any (fun char => !(char.isDigit || char == '-')) ↔ HasLetter text := by
  simp [HasLetter]

instance (text : String) : Decidable (Lexeme.HasLetter text) :=
  decidable_of_decidable_of_iff Lexeme.hasLetter_iff_any

/-- No number is spelled with a letter. -/
theorem Amount.toString_ne_of_hasLetter {text : String} (letter : Lexeme.HasLetter text)
    (amount : Int) : text ≠ toString amount := by
  rintro rfl
  obtain ⟨char, among, other⟩ := letter
  exact other (isDigit_of_mem_toString among)

/-- No keyword is written with digits and a sign alone. -/
theorem Amount.toString_notMem_keywords (amount : Int) : toString amount ∉ Token.keywords := by
  intro member
  have letters : ∀ keyword ∈ Token.keywords, Lexeme.HasLetter keyword := by decide
  exact toString_ne_of_hasLetter (letters _ member) amount rfl

/-- Names with letters are never taken for amounts. -/
theorem Scope.unambiguous_of_letters {scope : Scope} (resolver : scope.resolver = Resolver.integers)
    (terms : ∀ name ∈ scope.terms.names, Lexeme.HasLetter name)
    (macros : ∀ name ∈ scope.macros.keys, Lexeme.HasLetter name ∧ name ∉ scope.terms.names) :
    scope.Unambiguous where
  resolver := resolver
  numbers := by
    intro amount _ member
    exact Amount.toString_ne_of_hasLetter (terms _ member) amount rfl
  macroTerms := by
    intro name isMacro
    exact (macros name (NameMap.contains_iff_mem_keys.1 isMacro)).2
  macroNumbers := by
    intro name isMacro amount _
    exact Amount.toString_ne_of_hasLetter
      (macros name (NameMap.contains_iff_mem_keys.1 isMacro)).1 amount

/-- Digits are name characters. -/
theorem Lexeme.isNameChar_of_isDigit {char : Char} (digit : char.isDigit) : isNameChar char := by
  have bounds : 48 ≤ char.toNat ∧ char.toNat ≤ 57 := Char.isDigit_iff_toNat.1 digit
  have apart {other : Char} (outside : other.toNat < 48 ∨ 57 < other.toNat) : char ≠ other := by
    rintro rfl
    omega
  have notBlank : isBlank char = false := by
    simp only [isBlank, Bool.or_eq_false_iff, Bool.and_eq_false_iff, beq_eq_false_iff_ne,
      decide_eq_false_iff_not]
    omega
  have notReserved : char ∉ reserved := by
    simp only [reserved, List.mem_cons, List.not_mem_nil, or_false, not_or]
    refine ⟨apart ?_, apart ?_, apart ?_, apart ?_, apart ?_, apart ?_, apart ?_, apart ?_,
      apart ?_⟩ <;> decide
  simp [isNameChar, notBlank, notReserved]

/-- The spelling of a number is a name. -/
theorem Amount.isName_toString (amount : Int) : Lexeme.IsName (toString amount) := by
  refine ⟨toString_ne_empty amount, fun char member => ?_⟩
  rcases isDigit_of_mem_toString member with digit | rfl
  · exact Lexeme.isNameChar_of_isDigit digit
  · decide

/-- A number that is read is in range. -/
theorem Amount.inRange_of_ofText? {text : String} {amount : Int}
    (read : ofText? text = some amount) : InRange amount := by
  have accepted := (Option.filter_eq_some_iff.1 read).2
  simpa using accepted

namespace Manager

variable {manager : Manager} {scope : Scope}

/-- The text can stand in for a name of the operand. -/
structure Stands (scope : Scope) (vars : VariableTable) (operand : Operand) (name text : String) :
    Prop where
  isName : Lexeme.IsName name → Lexeme.IsName text
  notKeyword : name ∉ Token.keywords → text ∉ Token.keywords
  value : ∀ requester reading, scope.nameValue? requester reading text =
    some (operand.value (vars.inputs requester reading))

/-- The operand is not an amount that is written like a term. -/
def ClearOperand (manager : Manager) : Operand → Prop
  | .term _ => True
  | .slot index => manager.operandText (.slot index) ∉ manager.terms.names

/-- What the atom is written as is not taken for something else: its amounts are not written like
terms, nor is its bare name the name of a macro. -/
def Clear (manager : Manager) : Primitive → Prop
  | .constant _ => True
  | .operand content => manager.ClearOperand content ∧
      manager.macros.contains (manager.operandText content) = false
  | .comparison _ left right => manager.ClearOperand left ∧ manager.ClearOperand right

/-- A term is recovered under its own name. -/
theorem operandText_term (terms : manager.terms = scope.terms) {name : String} {id : TermId}
    (found : scope.terms.idOf? name = some id) : manager.operandText (.term id) = name := by
  have known := TermTable.nameOf?_eq_some_iff.2 found
  simp only [operandText, Operand.symbol, symbolText, Symbol.ofCode?_code, TermTable.label, terms,
    known, Option.getD_some]

/-- A variable is recovered under its own name. -/
theorem operandText_slot {index : Nat} {registration : Registration}
    (registered : manager.vars.registrations[index]? = some registration) :
    manager.operandText (.slot index) = registration.quantity.name := by
  simp only [operandText, Operand.symbol, symbolText, Symbol.ofCode?_code, VariableTable.atSlot?,
    registered, Option.map_some, Option.getD_some]

/-- The amount of a variable is the text that its slot is recovered as. -/
theorem operandText_amount (resolver : scope.resolver = Resolver.integers) {name : String}
    {index : Nat} {quantity : Variable}
    (matched : scope.resolver scope.terms name = some quantity)
    (registered : manager.vars.registrations[index]? = some ⟨name, quantity⟩) :
    ∃ amount, Amount.InRange amount ∧ quantity = .constant amount ∧
      manager.operandText (.slot index) = toString amount := by
  rw [resolver, Resolver.integers] at matched
  obtain ⟨amount, read, rfl⟩ := Option.map_eq_some_iff.1 matched
  exact ⟨amount, Amount.inRange_of_ofText? read, rfl, operandText_slot registered⟩

/-- Terms come back under their names and variables as amounts. -/
theorem stands_operandText (resolver : scope.resolver = Resolver.integers)
    (terms : manager.terms = scope.terms) {name : String} {operand : Operand}
    (clear : manager.ClearOperand operand) (names : scope.Names manager.vars name operand) :
    Stands scope manager.vars operand name (manager.operandText operand) := by
  cases names with
  | term found =>
      rw [operandText_term terms found]
      exact ⟨id, id, (Scope.Names.term found).nameValue?⟩
  | slot notTerm matched registered =>
      obtain ⟨amount, inRange, rfl, written⟩ := operandText_amount resolver matched registered
      rw [ClearOperand, written, terms] at clear
      rw [written]
      refine ⟨fun _ => Amount.isName_toString amount,
        fun _ => Amount.toString_notMem_keywords amount, fun requester reading => ?_⟩
      have unknown := TermTable.idOf?_eq_none_iff.2 clear
      simp only [Scope.nameValue?, unknown, resolver, Resolver.integers,
        Amount.ofText?_toString inRange, Option.map_some, Operand.value, VariableTable.inputs,
        VariableTable.value_of_registered registered]

/-- Where names and amounts are told apart, everything is clear. -/
theorem clear_of_unambiguous (unambiguous : scope.Unambiguous)
    (terms : manager.terms = scope.terms) (macros : manager.macros = scope.macros)
    {primitive : Primitive} (named : primitive.Named scope manager.vars) :
    manager.Clear primitive := by
  have operand {name : String} {operand : Operand}
      (names : scope.Names manager.vars name operand) : manager.ClearOperand operand := by
    cases names with
    | term found => trivial
    | slot notTerm matched registered =>
        obtain ⟨amount, inRange, _, written⟩ :=
          operandText_amount unambiguous.resolver matched registered
        rw [ClearOperand, written, terms]
        exact unambiguous.numbers amount inRange
  cases primitive with
  | constant value => trivial
  | operand content =>
      obtain ⟨name, names, _, _⟩ := named
      refine ⟨operand names, Bool.eq_false_iff.2 fun isMacro => ?_⟩
      rw [macros] at isMacro
      cases names with
      | term found =>
          rw [operandText_term terms found] at isMacro
          exact unambiguous.macroTerms name isMacro (TermTable.mem_of_idOf? found)
      | slot notTerm matched registered =>
          obtain ⟨amount, inRange, _, written⟩ :=
            operandText_amount unambiguous.resolver matched registered
          rw [written] at isMacro
          exact unambiguous.macroNumbers _ isMacro amount inRange rfl
  | comparison kind left right =>
      obtain ⟨⟨first, namesLeft, _⟩, second, namesRight, _⟩ := named
      exact ⟨operand namesLeft, operand namesRight⟩

/-- The token of a clear atom is plain under the macros of the manager. -/
theorem plain_tokenOf (resolver : scope.resolver = Resolver.integers)
    (terms : manager.terms = scope.terms) {primitive : Primitive}
    (clear : manager.Clear primitive) (named : primitive.Named scope manager.vars) :
    (manager.tokenOf primitive).Plain manager.macros.contains := by
  cases primitive with
  | constant value => trivial
  | operand content =>
      obtain ⟨name, names, isName, notKeyword⟩ := named
      have stands := stands_operandText resolver terms clear.1 names
      exact ⟨stands.isName isName, stands.notKeyword notKeyword, clear.2⟩
  | comparison kind left right =>
      obtain ⟨⟨first, namesLeft, isFirst⟩, second, namesRight, isSecond⟩ := named
      exact ⟨(stands_operandText resolver terms clear.1 namesLeft).isName isFirst,
        (stands_operandText resolver terms clear.2 namesRight).isName isSecond⟩

/-- The token of a clear atom means what the atom reads, in every scope with the same names. -/
theorem means_tokenOf (resolver : scope.resolver = Resolver.integers)
    (terms : manager.terms = scope.terms) {other : Scope} (otherTerms : other.terms = scope.terms)
    (otherResolver : other.resolver = scope.resolver) {primitive : Primitive}
    (clear : manager.Clear primitive) (named : primitive.Named scope manager.vars)
    (requester : String) (reading : Reading) :
    other.Means requester reading (.atom (manager.tokenOf primitive))
      (primitive.value (manager.vars.inputs requester reading)) := by
  have value {name : String} {operand : Operand} (clear : manager.ClearOperand operand)
      (names : scope.Names manager.vars name operand) :
      other.nameValue? requester reading (manager.operandText operand) =
        some (operand.value (manager.vars.inputs requester reading)) := by
    rw [Scope.nameValue?, otherTerms, otherResolver]
    exact (stands_operandText resolver terms clear names).value requester reading
  cases primitive with
  | constant bit => exact .constant bit
  | operand content =>
      obtain ⟨name, names, _⟩ := named
      exact .bare (value clear.1 names)
  | comparison kind left right =>
      obtain ⟨⟨first, namesLeft, _⟩, second, namesRight, _⟩ := named
      exact .comparison (value clear.1 namesLeft) (value clear.2 namesRight)

/-- The recovered tree means what the compiled tree evaluates to. -/
theorem means_map_tokenOf (resolver : scope.resolver = Resolver.integers)
    (terms : manager.terms = scope.terms) {other : Scope} (otherTerms : other.terms = scope.terms)
    (otherResolver : other.resolver = scope.resolver) {tree : Tree Primitive}
    (clear : tree.All manager.Clear) (named : tree.All (Primitive.Named scope manager.vars))
    (requester : String) (reading : Reading) :
    other.Means requester reading (tree.map manager.tokenOf)
      (tree.value (Primitive.value (manager.vars.inputs requester reading))) := by
  induction tree with
  | atom primitive =>
      exact means_tokenOf resolver terms otherTerms otherResolver clear named requester reading
  | join kind left right ihLeft ihRight =>
      exact .join (ihLeft clear.1 named.1) (ihRight clear.2 named.2)

end Manager

end Randomizer
