import Randomizer.Proofs.Logic.Tree

namespace Randomizer

/-- Both connectives are associative in value, whatever the operands are. -/
theorem Connective.value_assoc (kind : Connective) (first second third : Int) :
    kind.value (kind.value first second) third = kind.value first (kind.value second third) := by
  cases kind with
  | and =>
      by_cases positive : first > 0 <;> by_cases between : second > 0 <;>
        by_cases last : third > 0 <;> simp [value, truth, positive, between, last]
  | or =>
      by_cases positive : first > 0 <;> by_cases between : second > 0 <;>
        by_cases last : third > 0 <;> simp [value, truth, positive, between, last]

/-- A connective is known by its strength. -/
theorem Connective.strength_injective {first second : Connective}
    (same : first.strength = second.strength) : first = second := by
  cases first <;> cases second <;> simp_all [strength]

theorem Connective.strength_lt_two (kind : Connective) : kind.strength < 2 := by
  cases kind <;> decide

/-- The tokens that are not connectives, in order. -/
def Clause.operands (tokens : List Token) : List Token :=
  tokens.filter fun token => !token.isConnective

namespace Tree

variable {α β : Type}

/-- How tight the tree binds; atoms bind tighter than every connective. -/
def strength : Tree α → Nat
  | atom _ => 2
  | join kind _ _ => kind.strength

/-- No run of one connective is grouped from the right. -/
def Leaning : Tree α → Prop
  | atom _ => True
  | join kind left right => left.Leaning ∧ right.Leaning ∧ right.strength ≠ kind.strength

/-- Both trees joined, with the run that the second starts taken into that of the first. -/
def graft (kind : Connective) (left : Tree α) : Tree α → Tree α
  | atom content => join kind left (atom content)
  | join other inner right =>
    if other = kind then join kind (graft kind left inner) right
    else join kind left (join other inner right)

/-- Every run of one connective grouped from the left. -/
def leftward : Tree α → Tree α
  | atom content => atom content
  | join kind left right => graft kind left.leftward right.leftward

/-- A tree that leans to the left still does with another grafted on. -/
theorem leaning_graft (kind : Connective) {left right : Tree α} (ofLeft : left.Leaning)
    (ofRight : right.Leaning) : (graft kind left right).Leaning := by
  induction right with
  | atom content =>
      exact ⟨ofLeft, trivial, Nat.ne_of_gt kind.strength_lt_two⟩
  | join other inner right ihInner _ =>
      rw [graft]
      split
      · next same =>
        subst same
        exact ⟨ihInner ofRight.1, ofRight.2⟩
      · next apart =>
        exact ⟨ofLeft, ofRight, mt Connective.strength_injective apart⟩

/-- The leftward form leans to the left. -/
theorem leaning_leftward (tree : Tree α) : tree.leftward.Leaning := by
  induction tree with
  | atom content => trivial
  | join kind left right ihLeft ihRight => exact leaning_graft kind ihLeft ihRight

/-- A tree with another connective at its root is grafted on as it is. -/
theorem graft_of_apart {kind : Connective} {right : Tree α}
    (apart : right.strength ≠ kind.strength) (left : Tree α) :
    graft kind left right = .join kind left right := by
  cases right with
  | atom content => rfl
  | join other inner right =>
      exact if_neg fun same => apart (congrArg Connective.strength same)

/-- A tree that leans to the left is its own leftward form. -/
theorem leftward_of_leaning {tree : Tree α} (leaning : tree.Leaning) : tree.leftward = tree := by
  induction tree with
  | atom content => rfl
  | join kind left right ihLeft ihRight =>
      rw [leftward, ihLeft leaning.1, ihRight leaning.2.1, graft_of_apart leaning.2.2]

/-- Only a tree without runs that are grouped from the right is left as it is. -/
theorem leftward_eq_self_iff {tree : Tree α} : tree.leftward = tree ↔ tree.Leaning := by
  refine ⟨fun same => ?_, leftward_of_leaning⟩
  rw [← same]
  exact tree.leaning_leftward

/-- The second tree is the first one with runs of one connective grouped further to the left. -/
inductive Regroups : Tree α → Tree α → Prop where
  | refl (tree : Tree α) : Regroups tree tree
  | trans {first second third : Tree α} :
      Regroups first second → Regroups second third → Regroups first third
  | join {left right newLeft newRight : Tree α} (kind : Connective) :
      Regroups left newLeft → Regroups right newRight →
      Regroups (.join kind left right) (.join kind newLeft newRight)
  | assoc (kind : Connective) (first second third : Tree α) :
      Regroups (.join kind first (.join kind second third))
        (.join kind (.join kind first second) third)

/-- Grafting is associative, which is why the leftward form is unique. -/
theorem graft_graft (kind : Connective) (first second third : Tree α) :
    graft kind first (graft kind second third) = graft kind (graft kind first second) third := by
  have unfolded (inner right : Tree α) :
      graft kind first (.join kind inner right) = .join kind (graft kind first inner) right :=
    if_pos rfl
  induction third with
  | atom content => exact unfolded second (.atom content)
  | join other inner right ihInner _ =>
      rw [graft, graft]
      split
      · rw [unfolded, ihInner]
      · exact unfolded second (.join other inner right)

/-- A graft is reached by regrouping the join. -/
theorem regroups_graft (kind : Connective) (left right : Tree α) :
    Regroups (.join kind left right) (graft kind left right) := by
  induction right with
  | atom content => exact .refl _
  | join other inner right ihInner _ =>
      rw [graft]
      split
      · next same =>
        subst same
        exact .trans (.assoc other left inner right) (.join other ihInner (.refl right))
      · exact .refl _

/-- Every tree can be regrouped into its leftward form. -/
theorem regroups_leftward (tree : Tree α) : tree.Regroups tree.leftward := by
  induction tree with
  | atom content => exact .refl _
  | join kind left right ihLeft ihRight =>
      exact .trans (.join kind ihLeft ihRight) (regroups_graft kind _ _)

/-- Regrouping does not change the leftward form. -/
theorem Regroups.leftward_eq {first second : Tree α} (regroups : first.Regroups second) :
    first.leftward = second.leftward := by
  induction regroups with
  | refl => rfl
  | trans _ _ ihFirst ihSecond => exact ihFirst.trans ihSecond
  | join kind _ _ ihLeft ihRight => rw [leftward, ihLeft, ihRight, leftward]
  | assoc kind first second third => exact graft_graft kind _ _ _

/-- All ways to group to the left end in the same tree. -/
theorem Regroups.eq_leftward {first second : Tree α} (regroups : first.Regroups second)
    (leaning : second.Leaning) : second = first.leftward := by
  rw [regroups.leftward_eq, leftward_of_leaning leaning]

/-- A graft has the atoms of both trees. -/
theorem all_graft {property : α → Prop} {kind : Connective} {left right : Tree α} :
    (graft kind left right).All property ↔ left.All property ∧ right.All property := by
  induction right with
  | atom content => rfl
  | join other inner right ihInner _ =>
      rw [graft]
      split
      · rw [All, ihInner, All, and_assoc]
      · rfl

/-- The leftward form has the atoms of the tree. -/
theorem all_leftward {property : α → Prop} {tree : Tree α} :
    tree.leftward.All property ↔ tree.All property := by
  induction tree with
  | atom content => rfl
  | join kind left right ihLeft ihRight => rw [leftward, all_graft, ihLeft, ihRight, All]

/-- A change of the atoms may come before a graft or after it. -/
theorem map_graft (change : α → β) (kind : Connective) (left right : Tree α) :
    (graft kind left right).map change = graft kind (left.map change) (right.map change) := by
  induction right with
  | atom content => rfl
  | join other inner right ihInner _ =>
      rw [graft, map, graft]
      split
      · rw [map, ihInner]
      · rfl

/-- A change of the atoms may come before the regrouping or after it. -/
theorem map_leftward (change : α → β) (tree : Tree α) :
    tree.leftward.map change = (tree.map change).leftward := by
  induction tree with
  | atom content => rfl
  | join kind left right ihLeft ihRight => rw [leftward, map_graft, ihLeft, ihRight, map, leftward]

/-- A graft has the value of the join. -/
theorem value_graft (ofAtom : α → Int) (kind : Connective) (left right : Tree α) :
    (graft kind left right).value ofAtom =
      kind.value (left.value ofAtom) (right.value ofAtom) := by
  induction right with
  | atom content => rfl
  | join other inner right ihInner _ =>
      rw [graft]
      split
      · next same =>
        rw [value, ihInner, value, same, Connective.value_assoc]
      · rfl

/-- Association does not change values. -/
theorem value_leftward (ofAtom : α → Int) (tree : Tree α) :
    tree.leftward.value ofAtom = tree.value ofAtom := by
  induction tree with
  | atom content => rfl
  | join kind left right ihLeft ihRight =>
      rw [leftward, value_graft, ihLeft, ihRight, value]

/-- The operands of a join are those of its parts, in order. -/
theorem operands_join (kind : Connective) (left right : Tree Token) :
    Clause.operands (join kind left right).tokens =
      Clause.operands left.tokens ++ Clause.operands right.tokens := by
  rw [tokens_join, Clause.operands, List.filter_append, List.filter_append]
  exact List.append_nil _

/-- A graft keeps the operands in their order. -/
theorem operands_graft (kind : Connective) (left right : Tree Token) :
    Clause.operands (graft kind left right).tokens =
      Clause.operands left.tokens ++ Clause.operands right.tokens := by
  induction right with
  | atom token => exact operands_join kind left (.atom token)
  | join other inner right ihInner _ =>
      rw [graft]
      split
      · rw [operands_join, ihInner, operands_join, List.append_assoc]
      · exact operands_join kind left _

/-- Association does not change the operands and their order. -/
theorem operands_leftward (tree : Tree Token) :
    Clause.operands tree.leftward.tokens = Clause.operands tree.tokens := by
  induction tree with
  | atom token => rfl
  | join kind left right ihLeft ihRight =>
      rw [leftward, operands_graft, ihLeft, ihRight, operands_join]

/-- What a tree prints as. -/
def phrase : Tree Token → Clause.Phrase
  | atom token => .ofAtom token
  | join kind left right => .join kind left.phrase right.phrase

/-- The text of a tree binds as tight as the tree. -/
theorem strength_phrase (tree : Tree Token) : tree.phrase.strength = tree.strength := by
  cases tree <;> rfl

/-- Printing the tokens of a tree pushes the text of the tree. -/
theorem foldl_phrase_tokens {tree : Tree Token} (proper : tree.Proper)
    (stack : List Clause.Phrase) :
    tree.tokens.foldl Clause.Phrase.push stack = tree.phrase :: stack := by
  induction tree generalizing stack with
  | atom token =>
      cases token with
      | connective kind => simp [Proper, All, Token.isConnective] at proper
      | _ => rfl
  | join kind left right ihLeft ihRight =>
      rw [tokens_join, List.foldl_append, List.foldl_append, ihLeft proper.1, ihRight proper.2]
      rfl

/-- A clause prints as the tree that it writes. -/
theorem text_tokens {tree : Tree Token} (proper : tree.Proper) :
    Clause.text ⟨tree.tokens⟩ = tree.phrase.text := by
  rw [Clause.text, foldl_phrase_tokens proper]

/-- Runs of one connective print alike however they are grouped. -/
theorem join_join_text (kind : Connective) (first second third : Clause.Phrase) :
    Clause.Phrase.join kind (.join kind first second) third =
      .join kind first (.join kind second third) := by
  simp only [Clause.Phrase.join, Clause.Phrase.within, Nat.lt_irrefl, if_false,
    String.append_assoc]

/-- A graft prints like the join. -/
theorem phrase_graft (kind : Connective) (left right : Tree Token) :
    (graft kind left right).phrase = .join kind left.phrase right.phrase := by
  induction right with
  | atom token => rfl
  | join other inner right ihInner _ =>
      rw [graft]
      split
      · next same =>
        rw [phrase, ihInner, phrase, same, join_join_text]
      · rfl

/-- Association does not change the text. -/
theorem phrase_leftward (tree : Tree Token) : tree.leftward.phrase = tree.phrase := by
  induction tree with
  | atom token => rfl
  | join kind left right ihLeft ihRight => rw [leftward, phrase_graft, ihLeft, ihRight, phrase]

end Tree

end Randomizer
