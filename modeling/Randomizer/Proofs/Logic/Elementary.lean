import Randomizer.Proofs.Logic.Build
import Randomizer.Proofs.Logic.Printing

namespace Randomizer

namespace Scope

variable {scope : Scope}

/-- A token that compiles whatever is compiled already. -/
def Elementary (scope : Scope) : Token → Prop
  | .connective _ | .constant _ => True
  | .bare name => scope.Resolves name
  | .comparison _ left right => scope.Resolves left ∧ scope.Resolves right
  | .macroName _ | .reference _ | .fallback _ _ => False

/-- A name that has a value resolves. -/
theorem resolves_of_nameValue? {requester : String} {reading : Reading} {name : String}
    {value : Int} (named : scope.nameValue? requester reading name = some value) :
    scope.Resolves name := by
  unfold nameValue? at named
  split at named
  · next id found => exact .inl (TermTable.mem_of_idOf? found)
  · next notTerm =>
    obtain ⟨quantity, found, _⟩ := Option.map_eq_some_iff.1 named
    exact .inr ⟨quantity, found⟩

/-- Plain tokens that mean something are elementary. -/
theorem elementary_of_means {isMacro : String → Bool} {requester : String} {reading : Reading}
    {tree : Tree Token} {value : Int} (plain : tree.All (Token.Plain isMacro))
    (means : scope.Means requester reading tree value) :
    ∀ token ∈ tree.tokens, scope.Elementary token := by
  induction means with
  | bare named =>
      intro token member
      rw [List.mem_singleton.1 member]
      exact resolves_of_nameValue? named
  | comparison left right =>
      intro token member
      rw [List.mem_singleton.1 member]
      exact ⟨resolves_of_nameValue? left, resolves_of_nameValue? right⟩
  | constant value =>
      intro token member
      rw [List.mem_singleton.1 member]
      trivial
  | macroName | reference | first | second => exact plain.elim
  | join _ _ ihLeft ihRight =>
      intro token member
      rw [Tree.tokens_join, List.mem_append, List.mem_append, List.mem_singleton] at member
      rcases member with (inLeft | inRight) | rfl
      · exact ihLeft plain.1 token inLeft
      · exact ihRight plain.2 token inRight
      · trivial

/-- A name that resolves compiles. -/
theorem exists_compileName {name : String} (resolves : scope.Resolves name) (definition : String)
    (compiled : Compiled) :
    ∃ code next, scope.compileName definition name compiled = .ok code next := by
  cases found : scope.terms.idOf? name with
  | some id =>
      simp only [compileName, found]
      exact ⟨_, _, rfl⟩
  | none =>
      simp only [compileName, found, EStateM.get_bind_apply]
      cases compiled.vars.codeOf? name with
      | some code => exact ⟨_, _, rfl⟩
      | none =>
          rcases resolves with isTerm | ⟨quantity, matched⟩
          · exact absurd isTerm (TermTable.idOf?_eq_none_iff.1 found)
          · simp only [matched]
            exact ⟨_, _, rfl⟩

/-- An elementary token compiles, whatever is in progress. -/
theorem exists_compileToken {token : Token} (elementary : scope.Elementary token)
    (expanding inlining : List String) (compiled : Compiled) :
    ∃ program next, scope.compileToken expanding inlining token compiled = .ok program next := by
  rw [compileToken.eq_def]
  cases token with
  | connective kind => exact ⟨_, _, rfl⟩
  | constant value => exact ⟨_, _, rfl⟩
  | bare name =>
      obtain ⟨code, next, named⟩ := exists_compileName elementary (expanding.headD "") compiled
      exact ⟨[code], next, EStateM.bind_eq_ok_iff.2 ⟨code, next, named, rfl⟩⟩
  | comparison kind left right =>
      obtain ⟨first, middle, namedLeft⟩ :=
        exists_compileName elementary.1 (expanding.headD "") compiled
      obtain ⟨second, next, namedRight⟩ :=
        exists_compileName elementary.2 (expanding.headD "") middle
      refine ⟨[first, second, kind.operator.code], next, ?_⟩
      refine EStateM.bind_eq_ok_iff.2 ⟨first, middle, namedLeft, ?_⟩
      exact EStateM.bind_eq_ok_iff.2 ⟨second, next, namedRight, rfl⟩
  | macroName | reference | fallback => exact elementary.elim

/-- Elementary tokens compile. -/
theorem exists_compileTokens {tokens : List Token}
    (elementary : ∀ token ∈ tokens, scope.Elementary token) (expanding inlining : List String)
    (compiled : Compiled) :
    ∃ program next, scope.compileTokens expanding inlining tokens compiled = .ok program next := by
  induction tokens generalizing compiled with
  | nil =>
      rw [compileTokens.eq_def]
      exact ⟨_, _, rfl⟩
  | cons token rest ih =>
      obtain ⟨symbols, middle, compiledToken⟩ :=
        exists_compileToken (elementary token (by simp)) expanding inlining compiled
      obtain ⟨later, next, compiledRest⟩ :=
        ih (fun other member => elementary other (by simp [member])) middle
      rw [compileTokens.eq_def]
      refine ⟨symbols ++ later, next, ?_⟩
      refine EStateM.bind_eq_ok_iff.2 ⟨symbols, middle, compiledToken, ?_⟩
      exact EStateM.bind_eq_ok_iff.2 ⟨later, next, compiledRest, rfl⟩

/-- A clause of elementary tokens compiles. -/
theorem exists_compileClause {clause : Clause}
    (elementary : ∀ token ∈ clause.tokens, scope.Elementary token) (name : String)
    (compiled : Compiled) :
    ∃ definition next, scope.compileClause name clause compiled = .ok definition next := by
  obtain ⟨program, next, compiledTokens⟩ := exists_compileTokens elementary [name] [] compiled
  exact ⟨⟨name, program⟩, next, EStateM.bind_eq_ok_iff.2 ⟨program, next, compiledTokens, rfl⟩⟩

/-- What is elementary in the whole is elementary in a part of it. -/
theorem Elementary.ofPart {ambient : Scope} {token : Token}
    (elementary : ambient.Elementary token) (part : scope.PartOf ambient) :
    scope.Elementary token := by
  cases token with
  | connective | constant => trivial
  | bare name => exact part.resolves.2 elementary
  | comparison kind left right =>
      exact ⟨part.resolves.2 elementary.1, part.resolves.2 elementary.2⟩
  | macroName | reference | fallback => exact elementary.elim

end Scope

/-- A manager compiles every clause of elementary tokens. -/
theorem Manager.exists_compile {manager : Manager} {clause : Clause}
    (elementary : ∀ token ∈ clause.tokens, manager.scope.Elementary token) (name : String) :
    ∃ definition next, compile name clause manager = .ok definition next := by
  obtain ⟨definition, compiled, compiledClause⟩ := Scope.exists_compileClause elementary name
    ⟨manager.vars, manager.definitions⟩
  rw [compile, compiledClause]
  exact ⟨_, _, rfl⟩

namespace Builder

/-- Clauses of elementary tokens compile one after another. -/
theorem exists_compileAll {scope : Scope} {entries : List (String × Clause)}
    (elementary : ∀ entry ∈ entries, ∀ token ∈ entry.2.tokens, scope.Elementary token)
    (compiled : Compiled) : ∃ next, compileAll scope entries compiled = .ok () next := by
  induction entries generalizing compiled with
  | nil => exact ⟨compiled, rfl⟩
  | cons entry rest ih =>
      have others := fun entry member => elementary entry (List.mem_cons_of_mem _ member)
      rw [compileAll, EStateM.get_bind_apply]
      cases known : compiled.definitions.contains entry.1 with
      | true =>
          simp only [if_true]
          exact ih others compiled
      | false =>
          obtain ⟨definition, middle, compiledClause⟩ :=
            Scope.exists_compileClause (elementary entry (by simp)) entry.1 compiled
          obtain ⟨next, compiledRest⟩ := ih others
            { middle with definitions := middle.definitions.insert entry.1 definition }
          simp only [Bool.false_eq_true, if_false]
          refine ⟨next, EStateM.bind_eq_ok_iff.2 ⟨definition, middle, compiledClause, ?_⟩⟩
          exact EStateM.bind_eq_ok_iff.2 ⟨(), _, rfl, compiledRest⟩

/-- Waypoints with terms and definitions can all be added. -/
theorem exists_addWaypoints {manager : Manager} {entries : List (String × LogicRecord)}
    (known : ∀ name ∈ entries.map Prod.fst, ∃ waypoint, WaypointOf manager name waypoint) :
    ∃ next, addWaypoints manager entries = .ok next := by
  induction entries generalizing manager with
  | nil => exact ⟨manager, rfl⟩
  | cons entry rest ih =>
      obtain ⟨name, record⟩ := entry
      obtain ⟨waypoint, found, defined⟩ := known name (by simp)
      have built : buildWaypoint manager name = .ok waypoint := by
        rw [buildWaypoint, Manager.term, found, definitionOf, defined]
        rfl
      obtain ⟨next, added⟩ : ∃ next, addWaypoints
          { manager with waypoints := manager.waypoints.insert name waypoint } rest = .ok next :=
        ih fun other member => known other (by simp [member])
      exact ⟨next, Except.bind_eq_ok_iff.2 ⟨waypoint, built, added⟩⟩

/-- Transitions with terms and definitions can all be added. -/
theorem exists_addTransitions {manager : Manager} {entries : List (String × TransitionRecord)}
    (known : ∀ name ∈ entries.map Prod.fst, ∃ waypoint, WaypointOf manager name waypoint) :
    ∃ next, addTransitions manager entries = .ok next := by
  induction entries generalizing manager with
  | nil => exact ⟨manager, rfl⟩
  | cons entry rest ih =>
      obtain ⟨name, record⟩ := entry
      obtain ⟨waypoint, found, defined⟩ := known name (by simp)
      obtain ⟨transition, built⟩ :
          ∃ transition, buildTransition manager name record = .ok transition := by
        rw [buildTransition, Manager.term, found, definitionOf, defined]
        exact ⟨_, rfl⟩
      obtain ⟨next, added⟩ : ∃ next, addTransitions
          { manager with transitions := manager.transitions.insert name transition } rest =
            .ok next :=
        ih fun other member => known other (by simp [member])
      exact ⟨next, Except.bind_eq_ok_iff.2 ⟨transition, built, added⟩⟩

end Builder

end Randomizer
