import Randomizer.Logic.Clause
import Randomizer.Logic.Compile

namespace Randomizer

namespace Connective

/-- A conjunction asks for two positive operands and a disjunction for one. -/
def value : Connective → Int → Int → Int
  | .and, left, right => truth (left > 0 && right > 0)
  | .or, left, right => truth (left > 0 || right > 0)

/-- The operator of a connective has the value of the connective. -/
theorem operator_value (kind : Connective) (left right : Int) :
    kind.operator.value left right = kind.value left right := by
  cases kind <;> rfl

end Connective

namespace Comparison

def value : Comparison → Int → Int → Int
  | .equal, left, right => truth (left == right)
  | .less, left, right => truth (left < right)
  | .greater, left, right => truth (left > right)

/-- The operator of a comparison has the value of the comparison. -/
theorem operator_value (kind : Comparison) (left right : Int) :
    kind.operator.value left right = kind.value left right := by
  cases kind <;> rfl

end Comparison

/-- Atoms joined by connectives. -/
inductive Tree (α : Type) where
  | atom (content : α)
  | join (kind : Connective) (left right : Tree α)
  deriving DecidableEq, Repr

namespace Tree

variable {α β γ : Type}

/-- Every atom has the property. -/
def All (property : α → Prop) : Tree α → Prop
  | atom content => property content
  | join _ left right => left.All property ∧ right.All property

def map (change : α → β) : Tree α → Tree β
  | atom content => .atom (change content)
  | join kind left right => .join kind (left.map change) (right.map change)

/-- The value of a tree under values of its atoms. -/
def value (ofAtom : α → Int) : Tree α → Int
  | atom content => ofAtom content
  | join kind left right => kind.value (left.value ofAtom) (right.value ofAtom)

/-- What the atoms write, in order, with each connective after its two operands. -/
def linear (ofAtom : α → List β) (ofConnective : Connective → β) : Tree α → List β
  | atom content => ofAtom content
  | join kind left right =>
    left.linear ofAtom ofConnective ++ right.linear ofAtom ofConnective ++ [ofConnective kind]

/-- What implies a property of all atoms holds of all atoms. -/
theorem All.mono {property weaker : α → Prop} (implies : ∀ atom, property atom → weaker atom)
    {tree : Tree α} (all : tree.All property) : tree.All weaker := by
  induction tree with
  | atom content => exact implies content all
  | join kind left right ihLeft ihRight => exact ⟨ihLeft all.1, ihRight all.2⟩

/-- What holds of every atom holds of those of a tree. -/
theorem all_of_forall {property : α → Prop} (each : ∀ atom, property atom) (tree : Tree α) :
    tree.All property := by
  induction tree with
  | atom content => exact each content
  | join kind left right ihLeft ihRight => exact ⟨ihLeft, ihRight⟩

/-- Two properties of all atoms hold together. -/
theorem All.and {first second : α → Prop} {tree : Tree α} (ofFirst : tree.All first)
    (ofSecond : tree.All second) : tree.All fun atom => first atom ∧ second atom := by
  induction tree with
  | atom content => exact ⟨ofFirst, ofSecond⟩
  | join kind left right ihLeft ihRight =>
      exact ⟨ihLeft ofFirst.1 ofSecond.1, ihRight ofFirst.2 ofSecond.2⟩

/-- Changed atoms have a property if the atoms have it once changed. -/
theorem all_map {property : β → Prop} {change : α → β} {tree : Tree α} :
    (tree.map change).All property ↔ tree.All fun atom => property (change atom) := by
  induction tree with
  | atom content => rfl
  | join kind left right ihLeft ihRight => exact and_congr ihLeft ihRight

/-- The tokens of a clause that writes the tree. -/
def tokens (tree : Tree Token) : List Token := tree.linear (fun token => [token]) .connective

@[simp] theorem tokens_atom (token : Token) : (atom token).tokens = [token] := rfl

@[simp] theorem tokens_join (kind : Connective) (left right : Tree Token) :
    (join kind left right).tokens = left.tokens ++ right.tokens ++ [.connective kind] := rfl

/-- No connective stands in the place of an atom. -/
def Proper (tree : Tree Token) : Prop := tree.All fun token => token.isConnective = false

/-- One token's work on the trees read so far, the latest on top. -/
def push : List (Tree Token) → Token → List (Tree Token)
  | right :: left :: rest, .connective kind => .join kind left right :: rest
  | stack, token => .atom token :: stack

/-- An atom is pushed as a tree. -/
theorem push_atom (stack : List (Tree Token)) {token : Token}
    (notConnective : token.isConnective = false) : push stack token = .atom token :: stack := by
  unfold push
  split
  · simp [Token.isConnective] at notConnective
  · rfl

/-- The tokens of a tree push the tree. -/
theorem foldl_push_tokens {tree : Tree Token} (proper : tree.Proper)
    (stack : List (Tree Token)) : tree.tokens.foldl push stack = tree :: stack := by
  induction tree generalizing stack with
  | atom token => exact push_atom stack proper
  | join kind left right ihLeft ihRight =>
      rw [tokens_join, List.foldl_append, List.foldl_append, ihLeft proper.1, ihRight proper.2]
      rfl

/-- A list of tokens writes at most one tree. -/
theorem tokens_injective {first second : Tree Token} (properFirst : first.Proper)
    (properSecond : second.Proper) (same : first.tokens = second.tokens) : first = second := by
  have read := foldl_push_tokens properFirst []
  rw [same, foldl_push_tokens properSecond []] at read
  exact (List.cons.inj read).1.symm

/-- The atoms are the tokens that are not connectives. -/
theorem all_of_forall_mem_tokens {property : Token → Prop} {tree : Tree Token}
    (proper : tree.Proper)
    (each : ∀ token ∈ tree.tokens, token.isConnective = false → property token) :
    tree.All property := by
  induction tree with
  | atom token => exact each token (by simp) proper
  | join kind left right ihLeft ihRight =>
      refine ⟨ihLeft proper.1 fun token member => each token ?_,
        ihRight proper.2 fun token member => each token ?_⟩
      · simp [member]
      · simp [member]

/-- The tokens that are no connectives are atoms of the tree. -/
theorem forall_mem_tokens_of_all {property : Token → Prop} (tree : Tree Token)
    (all : tree.All property) :
    ∀ token ∈ tree.tokens, token.isConnective = false → property token := by
  induction tree with
  | atom atom =>
      intro token member _
      rw [tokens_atom, List.mem_singleton] at member
      rw [member]
      exact all
  | join kind left right ihLeft ihRight =>
      intro token member operand
      rw [tokens_join, List.mem_append, List.mem_append, List.mem_singleton] at member
      rcases member with (inLeft | inRight) | rfl
      · exact ihLeft all.1 token inLeft operand
      · exact ihRight all.2 token inRight operand
      · cases operand

end Tree

namespace Token

/-- An atom has no connective in it, also not as a branch of a fallback. -/
def IsAtom : Token → Prop
  | .connective _ => False
  | .fallback first second => first.IsAtom ∧ second.IsAtom
  | _ => True

/-- An atom is no connective. -/
theorem IsAtom.isConnective {token : Token} (isAtom : token.IsAtom) :
    token.isConnective = false := by
  cases token with
  | connective kind => exact isAtom.elim
  | _ => rfl

end Token

namespace Clause

/-- The tokens write a tree of atoms. -/
def Formed (clause : Clause) : Prop :=
  ∃ tree : Tree Token, tree.tokens = clause.tokens ∧ tree.All Token.IsAtom

/-- The tokens of such a clause are connectives and atoms. -/
theorem Formed.token {clause : Clause} (formed : clause.Formed) :
    ∀ token ∈ clause.tokens, token.isConnective = false → token.IsAtom := by
  obtain ⟨tree, written, atoms⟩ := formed
  rw [← written]
  exact tree.forall_mem_tokens_of_all atoms

/-- The check takes an operand as one more tree. -/
theorem checkFrom_operand {token : Token} (operand : token.isConnective = false)
    (depth position : Nat) (rest : List Token) :
    checkFrom depth position (token :: rest) = checkFrom (depth + 1) (position + 1) rest := by
  cases token with
  | connective kind => simp [Token.isConnective] at operand
  | _ => rfl

/-- Tokens that are checked to their end are those of one tree. -/
theorem exists_tree_of_checkFrom {tokens : List Token} {position : Nat} {stack : List (Tree Token)}
    (proper : ∀ tree ∈ stack, tree.Proper)
    (checked : checkFrom stack.length position tokens = .ok ()) :
    ∃ tree : Tree Token, tree.Proper ∧
      tree.tokens = (stack.reverse.flatMap Tree.tokens) ++ tokens := by
  induction tokens generalizing position stack with
  | nil =>
      unfold checkFrom at checked
      split at checked
      · next single =>
        obtain ⟨tree, rfl⟩ := List.length_eq_one_iff.1 single
        exact ⟨tree, proper tree (by simp), by simp⟩
      · cases checked
  | cons token rest ih =>
      cases operand : token.isConnective with
      | true =>
          cases token <;> simp only [Token.isConnective, Bool.false_eq_true] at operand
          next kind =>
          unfold checkFrom at checked
          split at checked
          · cases checked
          · next enough =>
            match stack, proper, checked, enough with
            | right :: left :: below, proper, checked, _ =>
              have joined : ∀ tree ∈ Tree.join kind left right :: below, tree.Proper := by
                intro tree member
                rcases List.mem_cons.1 member with rfl | later
                · exact ⟨proper left (by simp), proper right (by simp)⟩
                · exact proper tree (by simp [later])
              obtain ⟨tree, treeProper, written⟩ := ih joined checked
              exact ⟨tree, treeProper, by simp [written, List.append_assoc]⟩
            | [_], _, _, enough => simp at enough
            | [], _, _, enough => simp at enough
      | false =>
          have pushed : ∀ tree ∈ Tree.atom token :: stack, tree.Proper := by
            intro tree member
            rcases List.mem_cons.1 member with rfl | later
            · exact operand
            · exact proper tree later
          rw [checkFrom_operand operand] at checked
          obtain ⟨tree, treeProper, written⟩ := ih pushed checked
          exact ⟨tree, treeProper, by simp [written, List.append_assoc]⟩

/-- The tokens of a tree leave one more operand. -/
theorem checkFrom_tokens {tree : Tree Token} (proper : tree.Proper) (depth position : Nat)
    (rest : List Token) : checkFrom depth position (tree.tokens ++ rest) =
      checkFrom (depth + 1) (position + tree.tokens.length) rest := by
  induction tree generalizing depth position rest with
  | atom token => exact checkFrom_operand proper depth position rest
  | join kind left right ihLeft ihRight =>
      have enough : ¬ depth + 1 + 1 < 2 := by omega
      rw [Tree.tokens_join, List.append_assoc, List.append_assoc, ihLeft proper.1,
        ihRight proper.2, List.singleton_append, checkFrom, if_neg enough, Nat.add_sub_cancel]
      simp only [List.length_append, List.length_singleton, Nat.add_assoc]

/-- The tokens of a tree pass the check. -/
theorem check_tokens {tree : Tree Token} (proper : tree.Proper) : check tree.tokens = .ok () := by
  have checked := checkFrom_tokens proper 0 0 []
  rw [List.append_nil] at checked
  rw [check, checked]
  rfl

/-- Tokens that pass the check write a tree. -/
theorem exists_tree_of_check {tokens : List Token} (checked : check tokens = .ok ()) :
    ∃ tree : Tree Token, tree.Proper ∧ tree.tokens = tokens := by
  have none : ∀ tree ∈ ([] : List (Tree Token)), tree.Proper := by simp
  obtain ⟨tree, proper, written⟩ := exists_tree_of_checkFrom none checked
  exact ⟨tree, proper, by simpa using written⟩

end Clause

end Randomizer
