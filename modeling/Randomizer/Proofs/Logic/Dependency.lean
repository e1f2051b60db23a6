import Mathlib.Data.Fintype.Card
import Mathlib.Data.Set.Finite.List
import Mathlib.Logic.Relation
import Randomizer.Proofs.Logic.Expansion

/-!
What logic depends on. Definitions and macros make a graph whose edges are the references and the
macros in their clauses, where a fallback counts as the branch that it takes. Logic is sound in
itself when no circle can be reached from a definition and all that is needed on the way is there;
since there are finitely many clauses, every definition can then be taken apart to its end.
-/

namespace Randomizer

/-- Where a clause stands: under the name of a definition or of a macro. -/
inductive Node where
  | definition (name : String)
  | macroName (name : String)
  deriving DecidableEq, Repr

/-- What must be there for a token: a name that resolves, or the clause of a node. -/
inductive Need where
  | name (text : String)
  | clause (node : Node)
  deriving DecidableEq, Repr

namespace Scope

def clauseAt? (scope : Scope) : Node → Option Clause
  | .definition name => scope.sources.get? name
  | .macroName name => scope.macros.get? name

/-- What a token needs. A fallback needs what the branch that it takes needs. -/
inductive Needs (scope : Scope) : Token → Need → Prop where
  | bare (name : String) : Needs scope (.bare name) (.name name)
  | left (kind : Comparison) (left right : String) :
      Needs scope (.comparison kind left right) (.name left)
  | right (kind : Comparison) (left right : String) :
      Needs scope (.comparison kind left right) (.name right)
  | macroName (name : String) : Needs scope (.macroName name) (.clause (.macroName name))
  | reference (target : String) : Needs scope (.reference target) (.clause (.definition target))
  | first {first second : Token} {need : Need} : scope.AtomResolves first →
      Needs scope first need → Needs scope (.fallback first second) need
  | second {first second : Token} {need : Need} : ¬ scope.AtomResolves first →
      Needs scope second need → Needs scope (.fallback first second) need

def ClauseNeeds (scope : Scope) (clause : Clause) (need : Need) : Prop :=
  ∃ token ∈ clause.tokens, scope.Needs token need

/-- The clause of a node mentions another node. -/
def DependsOn (scope : Scope) (node other : Node) : Prop :=
  ∃ clause, scope.clauseAt? node = some clause ∧ scope.ClauseNeeds clause (.clause other)

/-- A definition leads to the node. -/
def Reached (scope : Scope) (node : Node) : Prop :=
  ∃ name ∈ scope.sources.keys, Relation.ReflTransGen scope.DependsOn (.definition name) node

/-- Nothing that a definition leads to lies on a circle, and all that is needed there is there. -/
structure SelfContained (scope : Scope) : Prop where
  acyclic : ∀ node, scope.Reached node → ¬ Relation.TransGen scope.DependsOn node node
  targets : ∀ target, scope.Reached (.definition target) → target ∈ scope.sources.keys
  names : ∀ node clause name, scope.Reached node → scope.clauseAt? node = some clause →
    scope.ClauseNeeds clause (.name name) → scope.Resolves name

/-- A node that can be taken apart to its end: it has a clause, the names in it resolve, and the
nodes in it can be taken apart. -/
inductive Founded (scope : Scope) : Node → Prop where
  | intro {node : Node} {clause : Clause} : scope.clauseAt? node = some clause →
      (∀ name, scope.ClauseNeeds clause (.name name) → scope.Resolves name) →
      (∀ other, scope.ClauseNeeds clause (.clause other) → Founded scope other) →
      Founded scope node

/-- A clause mentions only macros of the table. -/
def MacrosKnown (scope : Scope) : Prop :=
  ∀ node clause name, scope.clauseAt? node = some clause →
    scope.ClauseNeeds clause (.clause (.macroName name)) → name ∈ scope.macros.keys

variable {scope : Scope}

/-- What can be reached from a reached node is reached. -/
theorem Reached.trans {node other : Node} (reached : scope.Reached node)
    (leads : Relation.ReflTransGen scope.DependsOn node other) : scope.Reached other := by
  obtain ⟨name, member, path⟩ := reached
  exact ⟨name, member, path.trans leads⟩

namespace Founded

/-- Whatever a node that can be followed to its end needs can be so followed too. -/
theorem of_dependsOn {node other : Node} (founded : scope.Founded node)
    (depends : scope.DependsOn node other) : scope.Founded other := by
  obtain ⟨found, _, others⟩ := founded
  obtain ⟨clause, foundClause, needs⟩ := depends
  obtain rfl := Option.some.inj (found.symm.trans foundClause)
  exact others other needs

/-- Whatever a node that can be followed to its end leads to can be so followed too. -/
theorem of_leads {node other : Node} (founded : scope.Founded node)
    (leads : Relation.ReflTransGen scope.DependsOn node other) : scope.Founded other := by
  induction leads with
  | refl => exact founded
  | tail _ depends ih => exact ih.of_dependsOn depends

/-- A circle through a node would pass through the next node on it as well. -/
theorem acyclic {node : Node} (founded : scope.Founded node) :
    ¬ Relation.TransGen scope.DependsOn node node := by
  induction founded with
  | @intro node clause found _ _ ih =>
      intro circle
      obtain ⟨next, ⟨other, foundOther, needs⟩, back⟩ := Relation.TransGen.head'_iff.1 circle
      obtain rfl := Option.some.inj (found.symm.trans foundOther)
      exact ih next needs (Relation.TransGen.tail' back ⟨clause, found, needs⟩)

/-- Where a node can be followed to its end, its names resolve. -/
theorem resolves {node : Node} (founded : scope.Founded node) {clause : Clause} {name : String}
    (found : scope.clauseAt? node = some clause) (needs : scope.ClauseNeeds clause (.name name)) :
    scope.Resolves name := by
  obtain ⟨foundClause, names, _⟩ := founded
  obtain rfl := Option.some.inj (found.symm.trans foundClause)
  exact names name needs

/-- A node that can be followed to its end has a clause. -/
theorem exists_clause {node : Node} (founded : scope.Founded node) :
    ∃ clause, scope.clauseAt? node = some clause := by
  obtain ⟨found, _, _⟩ := founded
  exact ⟨_, found⟩

end Founded

namespace SelfContained

/-- Among self-contained clauses with known macros every node that is reached has a clause. -/
theorem exists_clause (contained : scope.SelfContained) (known : scope.MacrosKnown) {node : Node}
    (reached : scope.Reached node) : ∃ clause, scope.clauseAt? node = some clause := by
  cases node with
  | definition target => exact NameMap.mem_keys_iff.1 (contained.targets target reached)
  | macroName name =>
      obtain ⟨start, _, path⟩ := reached
      cases path with
      | tail _ depends =>
          obtain ⟨clause, found, needs⟩ := depends
          exact NameMap.mem_keys_iff.1 (known _ clause name found needs)

/-- There are no more nodes to reach than there are clauses. -/
theorem finite (contained : scope.SelfContained) (known : scope.MacrosKnown) :
    Finite {node // scope.Reached node} := by
  let nodes := scope.sources.keys.map Node.definition ++ scope.macros.keys.map Node.macroName
  refine (nodes.finite_toSet.subset fun node reached => ?_).to_subtype
  obtain ⟨clause, found⟩ := contained.exists_clause known reached
  cases node with
  | definition name =>
      exact List.mem_append_left _ (List.mem_map_of_mem (NameMap.mem_keys_of_get? found))
  | macroName name =>
      exact List.mem_append_right _ (List.mem_map_of_mem (NameMap.mem_keys_of_get? found))

/-- Without circles, finitely many nodes can be put in an order in which each comes after those
that it depends on. -/
theorem wellFounded (contained : scope.SelfContained) (known : scope.MacrosKnown) :
    WellFounded fun next node : {node // scope.Reached node} =>
      scope.DependsOn node.1 next.1 := by
  have := contained.finite known
  let later (next node : {node // scope.Reached node}) : Prop := scope.DependsOn node.1 next.1
  have : Std.Irrefl (Relation.TransGen later) := by
    refine ⟨fun node circle => contained.acyclic node.1 node.2 ?_⟩
    exact Relation.transGen_swap.1 (circle.lift Subtype.val fun _ _ depends => depends)
  have closed : WellFounded (Relation.TransGen later) :=
    Finite.wellFounded_of_trans_of_irrefl _
  refine Subrelation.wf (r := Relation.TransGen later) ?_ closed
  exact fun depends => .single depends

/-- Self-contained clauses without a cycle can all be followed to their ends. -/
theorem founded (contained : scope.SelfContained) (known : scope.MacrosKnown) {node : Node}
    (reached : scope.Reached node) : scope.Founded node := by
  have each (node : {node // scope.Reached node}) : scope.Founded node.1 := by
    induction node using (contained.wellFounded known).induction with
    | _ node ih =>
        obtain ⟨clause, found⟩ := contained.exists_clause known node.2
        refine .intro found (fun name => contained.names _ clause name node.2 found) ?_
        intro other needs
        have depends : scope.DependsOn node.1 other := ⟨clause, found, needs⟩
        exact ih ⟨other, node.2.trans (.single depends)⟩ depends
  exact each ⟨node, reached⟩

end SelfContained

/-- Logic is sound in itself when every definition can be taken apart to its end. -/
theorem selfContained_iff_founded (known : scope.MacrosKnown) :
    scope.SelfContained ↔ ∀ name ∈ scope.sources.keys, scope.Founded (.definition name) := by
  constructor
  · intro contained name member
    exact contained.founded known ⟨name, member, .refl⟩
  · intro founded
    have each {node : Node} (reached : scope.Reached node) : scope.Founded node := by
      obtain ⟨name, member, path⟩ := reached
      exact (founded name member).of_leads path
    refine ⟨fun node reached => (each reached).acyclic, fun target reached => ?_,
      fun node clause name reached found => (each reached).resolves found⟩
    exact NameMap.mem_keys_iff.2 (each reached).exists_clause

/-- A need that is met: the name resolves, or the node can be taken apart. -/
def Meets (scope : Scope) : Need → Prop
  | .name text => scope.Resolves text
  | .clause node => scope.Founded node

/-- A name with an operand resolves. -/
theorem Names.resolves {vars : VariableTable} {name : String} {operand : Operand}
    (names : scope.Names vars name operand) : scope.Resolves name := by
  cases names with
  | term found => exact .inl (TermTable.mem_of_idOf? found)
  | slot _ matched _ => exact .inr ⟨_, matched⟩

/-- The clause of a node whose needs are met. -/
theorem Founded.of_meets {node : Node} {clause : Clause}
    (found : scope.clauseAt? node = some clause)
    (meets : ∀ token ∈ clause.tokens, ∀ need, scope.Needs token need → scope.Meets need) :
    scope.Founded node := by
  refine .intro found (fun name needs => ?_) (fun other needs => ?_)
  · obtain ⟨token, member, needs⟩ := needs
    exact meets token member _ needs
  · obtain ⟨token, member, needs⟩ := needs
    exact meets token member _ needs

/-- Each need of a clause that can be followed to its end is met. -/
theorem Founded.meets {node : Node} (founded : scope.Founded node) {clause : Clause}
    (found : scope.clauseAt? node = some clause) {need : Need}
    (needs : scope.ClauseNeeds clause need) : scope.Meets need := by
  cases need with
  | name text => exact founded.resolves found needs
  | clause other => exact founded.of_dependsOn ⟨clause, found, needs⟩

/-- What logic needs is met when the logic is replaced by something. -/
theorem Expands.meets {vars : VariableTable} {tree : Tree Token} {compiled : Tree Primitive}
    (expands : scope.Expands vars tree compiled) :
    ∀ token ∈ tree.tokens, ∀ need, scope.Needs token need → scope.Meets need := by
  induction expands with
  | bare names =>
      intro token member need needs
      obtain rfl := List.mem_singleton.1 member
      cases needs
      exact names.resolves
  | comparison namesLeft namesRight =>
      intro token member need needs
      obtain rfl := List.mem_singleton.1 member
      cases needs with
      | left => exact namesLeft.resolves
      | right => exact namesRight.resolves
  | constant value =>
      intro token member need needs
      obtain rfl := List.mem_singleton.1 member
      cases needs
  | macroName found written _ ih =>
      intro token member need needs
      obtain rfl := List.mem_singleton.1 member
      cases needs
      exact .of_meets found (written ▸ ih)
  | reference found written _ ih =>
      intro token member need needs
      obtain rfl := List.mem_singleton.1 member
      cases needs
      exact .of_meets found (written ▸ ih)
  | first resolves _ ih =>
      intro token member need needs
      obtain rfl := List.mem_singleton.1 member
      cases needs with
      | first _ needs => exact ih _ List.mem_cons_self need needs
      | second stuck _ => exact absurd resolves stuck
  | second stuck _ ih =>
      intro token member need needs
      obtain rfl := List.mem_singleton.1 member
      cases needs with
      | first resolves _ => exact absurd resolves stuck
      | second _ needs => exact ih _ List.mem_cons_self need needs
  | join _ _ ihLeft ihRight =>
      intro token member need needs
      rw [Tree.tokens_join, List.mem_append, List.mem_append, List.mem_singleton] at member
      rcases member with (inLeft | inRight) | rfl
      · exact ihLeft token inLeft need needs
      · exact ihRight token inRight need needs
      · cases needs

/-- A clause that is replaced by symbols has all its needs met. -/
theorem ClauseExpands.meets {vars : VariableTable} {clause : Clause} {program : Program}
    (expands : scope.ClauseExpands vars clause program) :
    ∀ token ∈ clause.tokens, ∀ need, scope.Needs token need → scope.Meets need := by
  obtain ⟨tree, compiled, written, expandsTree, _⟩ := expands
  exact written ▸ expandsTree.meets

/-- A node whose clause is replaced by some program can be taken apart to its end. -/
theorem ClauseExpands.founded {vars : VariableTable} {node : Node} {clause : Clause}
    {program : Program} (found : scope.clauseAt? node = some clause)
    (expands : scope.ClauseExpands vars clause program) : scope.Founded node :=
  .of_meets found expands.meets

end Scope

end Randomizer
