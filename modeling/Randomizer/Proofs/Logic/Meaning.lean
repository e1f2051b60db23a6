import Randomizer.Proofs.Logic.Tree

/-!
The meaning of logic text, by recursion on the clause. A name reads a term or a variable, a macro
means its clause in the table, a reference means the clause of its target, and a fallback means the
branch that resolves; the definition that asks is the same throughout. A clause has at most one
meaning.
-/

namespace Randomizer.Scope

/-- The number that a name stands for: its term's, or that of the variable found for it. -/
def nameValue? (scope : Scope) (requester : String) (reading : Reading) (name : String) :
    Option Int :=
  match scope.terms.idOf? name with
  | some id => some (reading id)
  | none =>
    (scope.resolver scope.terms name).map fun quantity => quantity.value requester reading

/-- A name resolves when it is a term or a variable is found for it. -/
def Resolves (scope : Scope) (name : String) : Prop :=
  name ∈ scope.terms.names ∨ ∃ quantity, scope.resolver scope.terms name = some quantity

/-- An atom resolves when all that it mentions is there. -/
def AtomResolves (scope : Scope) : Token → Prop
  | .bare name => scope.Resolves name
  | .comparison _ left right => scope.Resolves left ∧ scope.Resolves right
  | .constant _ | .connective _ => True
  | .macroName name => name ∈ scope.macros.keys
  | .reference target => target ∈ scope.sources.keys
  | .fallback first second => scope.AtomResolves first ∨ scope.AtomResolves second

/-- What logic means to a requester when the terms have given values. -/
inductive Means (scope : Scope) (requester : String) (reading : Reading) :
    Tree Token → Int → Prop where
  | bare {name : String} {value : Int} :
      scope.nameValue? requester reading name = some value →
      Means scope requester reading (.atom (.bare name)) value
  | comparison {kind : Comparison} {left right : String} {first second : Int} :
      scope.nameValue? requester reading left = some first →
      scope.nameValue? requester reading right = some second →
      Means scope requester reading (.atom (.comparison kind left right))
        (kind.value first second)
  | constant (value : Bool) :
      Means scope requester reading (.atom (.constant value)) (truth value)
  | macroName {name : String} {clause : Clause} {tree : Tree Token} {value : Int} :
      scope.macros.get? name = some clause → tree.tokens = clause.tokens →
      Means scope requester reading tree value →
      Means scope requester reading (.atom (.macroName name)) value
  | reference {target : String} {clause : Clause} {tree : Tree Token} {value : Int} :
      scope.sources.get? target = some clause → tree.tokens = clause.tokens →
      Means scope requester reading tree value →
      Means scope requester reading (.atom (.reference target)) value
  | first {first second : Token} {value : Int} : scope.AtomResolves first →
      Means scope requester reading (.atom first) value →
      Means scope requester reading (.atom (.fallback first second)) value
  | second {first second : Token} {value : Int} : ¬ scope.AtomResolves first →
      Means scope requester reading (.atom second) value →
      Means scope requester reading (.atom (.fallback first second)) value
  | join {kind : Connective} {left right : Tree Token} {first second : Int} :
      Means scope requester reading left first →
      Means scope requester reading right second →
      Means scope requester reading (.join kind left right) (kind.value first second)

/-- The meaning of a clause is that of the tree it writes. -/
def ClauseMeans (scope : Scope) (requester : String) (reading : Reading) (clause : Clause)
    (value : Int) : Prop :=
  ∃ tree : Tree Token, tree.tokens = clause.tokens ∧ scope.Means requester reading tree value

variable {scope : Scope} {requester : String} {reading : Reading}

/-- Only trees whose atoms are no connectives have a meaning. -/
theorem Means.proper {tree : Tree Token} {value : Int}
    (means : scope.Means requester reading tree value) : tree.Proper := by
  induction means with
  | bare | comparison | constant | macroName | reference | first | second => rfl
  | join _ _ ihLeft ihRight => exact ⟨ihLeft, ihRight⟩

/-- A tree of tokens means one value. -/
theorem Means.unique {tree : Tree Token} {value other : Int}
    (means : scope.Means requester reading tree value)
    (meansOther : scope.Means requester reading tree other) : value = other := by
  induction means generalizing other with
  | bare named =>
      cases meansOther with
      | bare namedOther => exact Option.some.inj (named.symm.trans namedOther)
  | comparison left right =>
      cases meansOther with
      | comparison leftOther rightOther =>
          obtain rfl := Option.some.inj (left.symm.trans leftOther)
          obtain rfl := Option.some.inj (right.symm.trans rightOther)
          rfl
  | constant value =>
      cases meansOther
      rfl
  | macroName found written meansInner ih =>
      cases meansOther with
      | macroName foundOther writtenOther meansInnerOther =>
          obtain rfl := Option.some.inj (found.symm.trans foundOther)
          obtain rfl := Tree.tokens_injective meansInner.proper meansInnerOther.proper
            (written.trans writtenOther.symm)
          exact ih meansInnerOther
  | reference found written meansInner ih =>
      cases meansOther with
      | reference foundOther writtenOther meansInnerOther =>
          obtain rfl := Option.some.inj (found.symm.trans foundOther)
          obtain rfl := Tree.tokens_injective meansInner.proper meansInnerOther.proper
            (written.trans writtenOther.symm)
          exact ih meansInnerOther
  | first resolves _ ih =>
      cases meansOther with
      | first _ branch => exact ih branch
      | second stuck _ => exact absurd resolves stuck
  | second stuck _ ih =>
      cases meansOther with
      | first resolves _ => exact absurd resolves stuck
      | second _ branch => exact ih branch
  | join _ _ ihLeft ihRight =>
      cases meansOther with
      | join left right => rw [ihLeft left, ihRight right]

/-- A clause has at most one meaning. -/
theorem ClauseMeans.unique {clause : Clause} {value other : Int}
    (means : scope.ClauseMeans requester reading clause value)
    (meansOther : scope.ClauseMeans requester reading clause other) : value = other := by
  obtain ⟨tree, written, meansTree⟩ := means
  obtain ⟨otherTree, writtenOther, meansOtherTree⟩ := meansOther
  obtain rfl := Tree.tokens_injective meansTree.proper meansOtherTree.proper
    (written.trans writtenOther.symm)
  exact meansTree.unique meansOtherTree

end Randomizer.Scope
