import Randomizer.Proofs.Logic.Elementary
import Randomizer.Proofs.Logic.Recovery

namespace Randomizer.Manager

/-- The tree of a program that comes back with its meaning when it is written out. -/
structure Recovers (manager : Manager) (scope : Scope) (tree : Tree Primitive) : Prop where
  resolver : scope.resolver = Resolver.integers
  terms : manager.terms = scope.terms
  named : tree.All (Primitive.Named scope manager.vars)
  clear : tree.All manager.Clear

namespace Recovers

variable {manager : Manager} {scope : Scope} {tree : Tree Primitive}

/-- A tree that is recovered is so in its leftward form. -/
theorem leftward (recovers : manager.Recovers scope tree) :
    manager.Recovers scope tree.leftward where
  resolver := recovers.resolver
  terms := recovers.terms
  named := Tree.all_leftward.2 recovers.named
  clear := Tree.all_leftward.2 recovers.clear

/-- The recovered tokens are plain. -/
theorem plain (recovers : manager.Recovers scope tree) :
    (tree.map manager.tokenOf).All (Token.Plain manager.macros.contains) :=
  Tree.all_map.2 ((recovers.clear.and recovers.named).mono fun _ ⟨clear, named⟩ =>
    plain_tokenOf recovers.resolver recovers.terms clear named)

/-- The recovered clause can be read. -/
theorem readable (recovers : manager.Recovers scope tree) :
    Clause.Readable ⟨(tree.map manager.tokenOf).tokens⟩ :=
  ⟨tree.map manager.tokenOf, rfl, recovers.plain.mono fun _ => Token.Plain.readable⟩

section Other

variable {other : Scope} (recovers : manager.Recovers scope tree)
  (terms : other.terms = scope.terms) (resolver : other.resolver = scope.resolver)
include recovers terms resolver

/-- The recovered tokens mean what the tree evaluates to. -/
theorem means (requester : String) (reading : Reading) :
    other.Means requester reading (tree.map manager.tokenOf)
      (tree.value (Primitive.value (manager.vars.inputs requester reading))) :=
  means_map_tokenOf recovers.resolver recovers.terms terms resolver recovers.clear recovers.named
    requester reading

/-- Recovered tokens compile, whatever was compiled before. -/
theorem elementary : ∀ token ∈ (tree.map manager.tokenOf).tokens, other.Elementary token :=
  Scope.elementary_of_means recovers.plain (recovers.means terms resolver "" fun _ => 0)

/-- What recovered tokens compile to has the value of what they were recovered from. -/
theorem value_eq {definition again : Definition} {vars : VariableTable}
    (same : again.name = definition.name) {reading : Reading}
    (evaluates : definition.value manager.vars reading =
      tree.value (Primitive.value (manager.vars.inputs definition.name reading)))
    (expands : other.ClauseExpands vars ⟨(tree.map manager.tokenOf).tokens⟩ again.program) :
    again.value vars reading = definition.value manager.vars reading := by
  rw [evaluates, ← same]
  exact (expands.means again.name reading).unique
    ⟨_, rfl, recovers.means terms resolver again.name reading⟩

/-- The text of a definition is read and compiled to one that holds when the definition does. -/
theorem exists_compileText (formed : other.Formed) {current : Manager}
    (sound : current.Sound other) (macros : current.macros = manager.macros)
    {definition : Definition} (writes : definition.program = tree.program) :
    ∃ again next, compileText definition.name (manager.textOf definition) current =
        .ok again next ∧
      ∀ later, next.vars.Precedes later →
        ∀ reading, again.holds later reading = definition.holds manager.vars reading := by
  have parsed : current.macros.parse definition.name (manager.textOf definition) =
      .ok ⟨(tree.leftward.map manager.tokenOf).tokens⟩ := by
    rw [MacroTable.parse, MacroTable.parseWith, Except.mapError_eq_ok_iff, textOf,
      manager.clauseOf_program writes, macros,
      Clause.ofText_text (recovers.plain.mono fun _ => Token.Plain.native), Tree.map_leftward]
  obtain ⟨again, next, compiled⟩ := exists_compile
    (fun token member =>
      (recovers.leftward.elementary terms resolver token member).ofPart sound.part)
    definition.name
  have ran : compileText definition.name (manager.textOf definition) current = .ok again next := by
    rw [compileText_of_parse parsed]
    exact compiled
  refine ⟨again, next, ran, fun later before reading => ?_⟩
  obtain ⟨same, expands, _, _⟩ :=
    compile_ok formed sound recovers.leftward.readable.formed compiled
  have evaluates : definition.value manager.vars reading =
      tree.leftward.value (Primitive.value (manager.vars.inputs definition.name reading)) := by
    rw [Tree.value_leftward, Definition.value, writes, Tree.value_program]
  rw [Definition.holds, Definition.holds,
    recovers.leftward.value_eq terms resolver same evaluates (expands.mono before)]

end Other

end Recovers

end Randomizer.Manager
