import Randomizer.Logic.Compile
import Randomizer.Proofs.Outcome

/-!
The steps of compiling. Each token compiles in one of a few ways, or fails in one of a few others;
what is to be shown of all compilations is shown of these.
-/

namespace Randomizer.Scope

variable {scope : Scope} {compiled next : Compiled} {expanding inlining : List String}

/-- A macro's token compiles as the clause in the table. -/
theorem compileToken_macroName {expanding inlining : List String} {name : String}
    {clause : Clause} (free : name ∉ inlining) (found : scope.macros.get? name = some clause) :
    scope.compileToken expanding inlining (.macroName name) =
      scope.compileTokens expanding (name :: inlining) clause.tokens := by
  rw [compileToken, dif_neg free]
  split
  · next missing => rw [found] at missing; cases missing
  · next other foundOther =>
    rw [found] at foundOther
    cases foundOther
    rfl

/-- The token of a macro that the table lacks does not compile. -/
theorem compileToken_macroName_of_none {expanding inlining : List String} {name : String}
    (free : name ∉ inlining) (missing : scope.macros.get? name = none) :
    scope.compileToken expanding inlining (.macroName name) = throw (.unknownMacro name) := by
  rw [compileToken, dif_neg free]
  split
  · rfl
  · next found => rw [missing] at found; cases found

section Reference

variable {expanding inlining : List String} {target : String}

/-- A target that is compiled already gives its program. -/
theorem compileToken_reference_of_defined {definition : Definition}
    (defined : compiled.definitions.get? target = some definition) :
    scope.compileToken expanding inlining (.reference target) compiled =
      .ok definition.program compiled := by
  rw [compileToken, EStateM.get_bind_apply, defined]
  rfl

/-- A target in progress is a circular reference. -/
theorem compileToken_reference_of_busy (undefined : compiled.definitions.get? target = none)
    (busy : target ∈ expanding) :
    scope.compileToken expanding inlining (.reference target) compiled =
      .error (.circularReference target) compiled := by
  rw [compileToken, EStateM.get_bind_apply, undefined]
  dsimp only
  rw [dif_pos busy]
  rfl

/-- A target without a clause is an unknown reference of the definition in progress. -/
theorem compileToken_reference_of_missing (undefined : compiled.definitions.get? target = none)
    (free : target ∉ expanding) (missing : scope.sources.get? target = none) :
    scope.compileToken expanding inlining (.reference target) compiled =
      .error (.unknownReference (expanding.headD "") target) compiled := by
  rw [compileToken, EStateM.get_bind_apply, undefined]
  dsimp only
  rw [dif_neg free]
  change EStateM.run _ compiled = _
  split
  · rfl
  · next found => rw [missing] at found; cases found

/-- A target with a clause at hand is compiled now and stays. -/
theorem compileToken_reference_of_source (undefined : compiled.definitions.get? target = none)
    (free : target ∉ expanding) {clause : Clause}
    (source : scope.sources.get? target = some clause) :
    scope.compileToken expanding inlining (.reference target) compiled =
      EStateM.run (do
        let program ← scope.compileTokens (target :: expanding) inlining clause.tokens
        modify fun compiled =>
          { compiled with definitions := compiled.definitions.insert target ⟨target, program⟩ }
        return program) compiled := by
  rw [compileToken, EStateM.get_bind_apply, undefined]
  dsimp only
  rw [dif_neg free]
  change EStateM.run _ compiled = _
  split
  · next missing => rw [source] at missing; cases missing
  · next other found =>
    rw [source] at found
    cases found
    rfl

end Reference

/-- A token compiles alike alone and as the only one of several. -/
theorem compileTokens_singleton (scope : Scope) (expanding inlining : List String)
    (token : Token) :
    scope.compileTokens expanding inlining [token] =
      scope.compileToken expanding inlining token := by
  rw [compileTokens, compileTokens]
  simp only [pure_bind, List.append_nil, bind_pure]

/-- How tokens compile to a program, from one state to another. -/
inductive Yields (scope : Scope) : (expanding inlining : List String) → List Token → Compiled →
    Program → Compiled → Prop where
  | connective {expanding inlining : List String} {compiled : Compiled} (kind : Connective) :
      Yields scope expanding inlining [.connective kind] compiled [kind.operator.code] compiled
  | constant {expanding inlining : List String} {compiled : Compiled} (value : Bool) :
      Yields scope expanding inlining [.constant value] compiled [(constantOperator value).code]
        compiled
  | bare {expanding inlining : List String} {name : String} {compiled next : Compiled} {code : Int}
      (named : scope.compileName (expanding.headD "") name compiled = .ok code next) :
      Yields scope expanding inlining [.bare name] compiled [code] next
  | comparison {expanding inlining : List String} {kind : Comparison} {left right : String}
      {compiled middle next : Compiled} {leftCode rightCode : Int}
      (namedLeft : scope.compileName (expanding.headD "") left compiled = .ok leftCode middle)
      (namedRight : scope.compileName (expanding.headD "") right middle = .ok rightCode next) :
      Yields scope expanding inlining [.comparison kind left right] compiled
        [leftCode, rightCode, kind.operator.code] next
  | macroName {expanding inlining : List String} {name : String} {clause : Clause}
      {compiled next : Compiled} {program : Program} (free : name ∉ inlining)
      (found : scope.macros.get? name = some clause)
      (inner : Yields scope expanding (name :: inlining) clause.tokens compiled program next) :
      Yields scope expanding inlining [.macroName name] compiled program next
  | defined {expanding inlining : List String} {target : String} {compiled : Compiled}
      {definition : Definition} (known : compiled.definitions.get? target = some definition) :
      Yields scope expanding inlining [.reference target] compiled definition.program compiled
  | reference {expanding inlining : List String} {target : String} {clause : Clause}
      {compiled middle : Compiled} {program : Program}
      (free : target ∉ expanding) (source : scope.sources.get? target = some clause)
      (inner : Yields scope (target :: expanding) inlining clause.tokens compiled program middle) :
      Yields scope expanding inlining [.reference target] compiled program
        { middle with definitions := middle.definitions.insert target ⟨target, program⟩ }
  | first {expanding inlining : List String} {first second : Token} {compiled next : Compiled}
      {program : Program} (taken : scope.resolves compiled first)
      (yields : Yields scope expanding inlining [first] compiled program next) :
      Yields scope expanding inlining [.fallback first second] compiled program next
  | second {expanding inlining : List String} {first second : Token} {compiled next : Compiled}
      {program : Program} (passed : ¬ scope.resolves compiled first)
      (yields : Yields scope expanding inlining [second] compiled program next) :
      Yields scope expanding inlining [.fallback first second] compiled program next
  | nil {expanding inlining : List String} {compiled : Compiled} :
      Yields scope expanding inlining [] compiled [] compiled
  | cons {expanding inlining : List String} {token : Token} {rest : List Token}
      {compiled middle next : Compiled} {symbols later : Program}
      (head : Yields scope expanding inlining [token] compiled symbols middle)
      (tail : Yields scope expanding inlining rest middle later next) :
      Yields scope expanding inlining (token :: rest) compiled (symbols ++ later) next

/-- How the compilation of tokens comes to an error. -/
inductive Fails (scope : Scope) : (expanding inlining : List String) → List Token → Compiled →
    Error → Compiled → Prop where
  | bare {expanding inlining : List String} {name : String} {compiled next : Compiled}
      {error : Error}
      (stuck : scope.compileName (expanding.headD "") name compiled = .error error next) :
      Fails scope expanding inlining [.bare name] compiled error next
  | left {expanding inlining : List String} {kind : Comparison} {left right : String}
      {compiled next : Compiled} {error : Error}
      (stuck : scope.compileName (expanding.headD "") left compiled = .error error next) :
      Fails scope expanding inlining [.comparison kind left right] compiled error next
  | right {expanding inlining : List String} {kind : Comparison} {left right : String}
      {compiled middle next : Compiled} {code : Int} {error : Error}
      (named : scope.compileName (expanding.headD "") left compiled = .ok code middle)
      (stuck : scope.compileName (expanding.headD "") right middle = .error error next) :
      Fails scope expanding inlining [.comparison kind left right] compiled error next
  | circularMacro {expanding inlining : List String} {name : String} {compiled : Compiled}
      (busy : name ∈ inlining) :
      Fails scope expanding inlining [.macroName name] compiled (.circularReference name) compiled
  | unknownMacro {expanding inlining : List String} {name : String} {compiled : Compiled}
      (free : name ∉ inlining) (missing : scope.macros.get? name = none) :
      Fails scope expanding inlining [.macroName name] compiled (.unknownMacro name) compiled
  | macroName {expanding inlining : List String} {name : String} {clause : Clause}
      {compiled next : Compiled} {error : Error} (free : name ∉ inlining)
      (found : scope.macros.get? name = some clause)
      (inner : Fails scope expanding (name :: inlining) clause.tokens compiled error next) :
      Fails scope expanding inlining [.macroName name] compiled error next
  | circularReference {expanding inlining : List String} {target : String} {compiled : Compiled}
      (busy : target ∈ expanding) :
      Fails scope expanding inlining [.reference target] compiled (.circularReference target)
        compiled
  | unknownReference {expanding inlining : List String} {target : String} {compiled : Compiled}
      (missing : scope.sources.get? target = none) :
      Fails scope expanding inlining [.reference target] compiled
        (.unknownReference (expanding.headD "") target) compiled
  | reference {expanding inlining : List String} {target : String} {clause : Clause}
      {compiled next : Compiled} {error : Error} (free : target ∉ expanding)
      (source : scope.sources.get? target = some clause)
      (inner : Fails scope (target :: expanding) inlining clause.tokens compiled error next) :
      Fails scope expanding inlining [.reference target] compiled error next
  | first {expanding inlining : List String} {first second : Token} {compiled next : Compiled}
      {error : Error} (taken : scope.resolves compiled first)
      (fails : Fails scope expanding inlining [first] compiled error next) :
      Fails scope expanding inlining [.fallback first second] compiled error next
  | second {expanding inlining : List String} {first second : Token} {compiled next : Compiled}
      {error : Error} (passed : ¬ scope.resolves compiled first)
      (fails : Fails scope expanding inlining [second] compiled error next) :
      Fails scope expanding inlining [.fallback first second] compiled error next
  | head {expanding inlining : List String} {token : Token} {rest : List Token}
      {compiled next : Compiled} {error : Error}
      (fails : Fails scope expanding inlining [token] compiled error next) :
      Fails scope expanding inlining (token :: rest) compiled error next
  | tail {expanding inlining : List String} {token : Token} {rest : List Token}
      {compiled middle next : Compiled} {symbols : Program} {error : Error}
      (head : Yields scope expanding inlining [token] compiled symbols middle)
      (fails : Fails scope expanding inlining rest middle error next) :
      Fails scope expanding inlining (token :: rest) compiled error next

/-- What is to be shown of every compilation, token by token. -/
structure Throughout (scope : Scope)
    (shown : List String → List String → List Token → Compile Program → Prop) : Prop where
  connective : ∀ expanding inlining kind,
    shown expanding inlining [.connective kind] (return [kind.operator.code])
  constant : ∀ expanding inlining value,
    shown expanding inlining [.constant value] (return [(constantOperator value).code])
  bare : ∀ expanding inlining name,
    shown expanding inlining [.bare name] (do
      return [← scope.compileName (expanding.headD "") name])
  comparison : ∀ expanding inlining kind left right,
    shown expanding inlining [.comparison kind left right] (do
      let leftCode ← scope.compileName (expanding.headD "") left
      let rightCode ← scope.compileName (expanding.headD "") right
      return [leftCode, rightCode, kind.operator.code])
  circularMacro : ∀ expanding inlining name, name ∈ inlining →
    shown expanding inlining [.macroName name] (throw (.circularReference name))
  unknownMacro : ∀ expanding inlining name, name ∉ inlining → scope.macros.get? name = none →
    shown expanding inlining [.macroName name] (throw (.unknownMacro name))
  macroName : ∀ expanding inlining name clause, name ∉ inlining →
    scope.macros.get? name = some clause →
    shown expanding (name :: inlining) clause.tokens
      (scope.compileTokens expanding (name :: inlining) clause.tokens) →
    shown expanding inlining [.macroName name]
      (scope.compileTokens expanding (name :: inlining) clause.tokens)
  reference : ∀ expanding inlining target,
    (∀ clause, target ∉ expanding → scope.sources.get? target = some clause →
      shown (target :: expanding) inlining clause.tokens
        (scope.compileTokens (target :: expanding) inlining clause.tokens)) →
    shown expanding inlining [.reference target]
      (scope.compileToken expanding inlining (.reference target))
  fallback : ∀ expanding inlining first second,
    shown expanding inlining [first] (scope.compileToken expanding inlining first) →
    shown expanding inlining [second] (scope.compileToken expanding inlining second) →
    shown expanding inlining [.fallback first second] (do
      if scope.resolves (← get) first then scope.compileToken expanding inlining first
      else scope.compileToken expanding inlining second)
  nil : ∀ expanding inlining, shown expanding inlining [] (return [])
  cons : ∀ expanding inlining token rest,
    shown expanding inlining [token] (scope.compileToken expanding inlining token) →
    shown expanding inlining rest (scope.compileTokens expanding inlining rest) →
    shown expanding inlining (token :: rest) (do
      let symbols ← scope.compileToken expanding inlining token
      let later ← scope.compileTokens expanding inlining rest
      return symbols ++ later)

/-- The cases of compiling, gone through once. -/
theorem Throughout.compileToken_and
    {shown : List String → List String → List Token → Compile Program → Prop}
    (cases : scope.Throughout shown) :
    (∀ expanding inlining token,
      shown expanding inlining [token] (scope.compileToken expanding inlining token)) ∧
    ∀ expanding inlining tokens,
      shown expanding inlining tokens (scope.compileTokens expanding inlining tokens) := by
  apply Scope.compileToken.mutual_induct scope
  case case1 =>
    intro expanding inlining kind
    rw [compileToken]
    exact cases.connective expanding inlining kind
  case case2 =>
    intro expanding inlining value
    rw [compileToken]
    exact cases.constant expanding inlining value
  case case3 =>
    intro expanding inlining name
    rw [compileToken]
    exact cases.bare expanding inlining name
  case case4 =>
    intro expanding inlining kind left right
    rw [compileToken]
    exact cases.comparison expanding inlining kind left right
  case case5 =>
    intro expanding inlining name busy
    rw [compileToken, dif_pos busy]
    exact cases.circularMacro expanding inlining name busy
  case case6 =>
    intro expanding inlining name free missing
    rw [compileToken_macroName_of_none free missing]
    exact cases.unknownMacro expanding inlining name free missing
  case case7 =>
    intro expanding inlining name free clause found _ ih
    rw [compileToken_macroName free found]
    exact cases.macroName expanding inlining name clause free found ih
  case case8 =>
    intro expanding inlining target ih
    exact cases.reference expanding inlining target fun clause free found => ih free clause found
  case case9 =>
    intro expanding inlining first second ihFirst ihSecond
    rw [compileToken]
    exact cases.fallback expanding inlining first second ihFirst ihSecond
  case case10 =>
    intro expanding inlining
    rw [compileTokens]
    exact cases.nil expanding inlining
  case case11 =>
    intro expanding inlining token rest ihToken ihRest
    rw [compileTokens]
    exact cases.cons expanding inlining token rest ihToken ihRest

/-- A program that is yielded, or an error that is come to. -/
def Comes (scope : Scope) (expanding inlining : List String) (tokens : List Token)
    (compiled : Compiled) : EStateM.Result Error Compiled Program → Prop
  | .ok program next => scope.Yields expanding inlining tokens compiled program next
  | .error error next => scope.Fails expanding inlining tokens compiled error next

/-- A reference goes by a step in each of its four cases. -/
theorem comes_reference {target : String}
    (ih : ∀ clause, target ∉ expanding → scope.sources.get? target = some clause →
      ∀ compiled, scope.Comes (target :: expanding) inlining clause.tokens compiled
        (scope.compileTokens (target :: expanding) inlining clause.tokens compiled)) :
    scope.Comes expanding inlining [.reference target] compiled
      (scope.compileToken expanding inlining (.reference target) compiled) := by
  cases known : compiled.definitions.get? target with
  | some definition =>
      rw [compileToken_reference_of_defined known]
      exact .defined known
  | none =>
      by_cases busy : target ∈ expanding
      · rw [compileToken_reference_of_busy known busy]
        exact .circularReference busy
      · cases source : scope.sources.get? target with
        | none =>
            rw [compileToken_reference_of_missing known busy source]
            exact .unknownReference source
        | some clause =>
            have inner := ih clause busy source compiled
            rw [compileToken_reference_of_source known busy source]
            cases ran :
                scope.compileTokens (target :: expanding) inlining clause.tokens compiled with
            | ok program middle =>
                rw [ran] at inner
                rw [EStateM.run, EStateM.bind_of_ok ran]
                exact .reference busy source inner
            | error error middle =>
                rw [ran] at inner
                rw [EStateM.run, EStateM.bind_of_error ran]
                exact .reference busy source inner

/-- Every compilation goes by its steps. -/
theorem throughout_comes (scope : Scope) :
    scope.Throughout fun expanding inlining tokens work =>
      ∀ compiled, scope.Comes expanding inlining tokens compiled (work compiled) where
  connective := fun _ _ kind _ => .connective kind
  constant := fun _ _ value _ => .constant value
  bare := by
    intro expanding inlining name compiled
    cases named : scope.compileName (expanding.headD "") name compiled with
    | ok code next =>
        rw [EStateM.bind_of_ok named]
        exact .bare named
    | error error next =>
        rw [EStateM.bind_of_error named]
        exact .bare named
  comparison := by
    intro expanding inlining kind left right compiled
    cases namedLeft : scope.compileName (expanding.headD "") left compiled with
    | error error next =>
        rw [EStateM.bind_of_error namedLeft]
        exact .left namedLeft
    | ok leftCode middle =>
        rw [EStateM.bind_of_ok namedLeft]
        cases namedRight : scope.compileName (expanding.headD "") right middle with
        | ok rightCode next =>
            rw [EStateM.bind_of_ok namedRight]
            exact .comparison namedLeft namedRight
        | error error next =>
            rw [EStateM.bind_of_error namedRight]
            exact .right namedLeft namedRight
  circularMacro := fun _ _ _ busy _ => .circularMacro busy
  unknownMacro := fun _ _ _ free missing _ => .unknownMacro free missing
  macroName := by
    intro expanding inlining name clause free found inner compiled
    have comes := inner compiled
    cases ran : scope.compileTokens expanding (name :: inlining) clause.tokens compiled with
    | ok | error =>
        rw [ran] at comes
        exact .macroName free found comes
  reference := fun _ _ _ ih _ => comes_reference ih
  fallback := by
    intro expanding inlining first second ofFirst ofSecond compiled
    rw [EStateM.get_bind_apply]
    by_cases taken : scope.resolves compiled first
    · have comes := ofFirst compiled
      rw [if_pos taken]
      cases ran : scope.compileToken expanding inlining first compiled with
      | ok | error =>
          rw [ran] at comes
          exact .first taken comes
    · have comes := ofSecond compiled
      rw [if_neg taken]
      cases ran : scope.compileToken expanding inlining second compiled with
      | ok | error =>
          rw [ran] at comes
          exact .second taken comes
  nil := fun _ _ _ => .nil
  cons := by
    intro expanding inlining token rest ofToken ofRest compiled
    have comes := ofToken compiled
    cases ran : scope.compileToken expanding inlining token compiled with
    | error error next =>
        rw [ran] at comes
        rw [EStateM.bind_of_error ran]
        exact .head comes
    | ok symbols middle =>
        have comesRest := ofRest middle
        rw [ran] at comes
        rw [EStateM.bind_of_ok ran]
        cases ranRest : scope.compileTokens expanding inlining rest middle with
        | ok later next =>
            rw [ranRest] at comesRest
            rw [EStateM.bind_of_ok ranRest]
            exact .cons comes comesRest
        | error error next =>
            rw [ranRest] at comesRest
            rw [EStateM.bind_of_error ranRest]
            exact .tail comes comesRest

section Runs

variable {token : Token} {tokens : List Token} {program : Program} {error : Error}

/-- A token that compiles does so by a step. -/
theorem yields_of_compileToken
    (ran : scope.compileToken expanding inlining token compiled = .ok program next) :
    scope.Yields expanding inlining [token] compiled program next := by
  have comes := scope.throughout_comes.compileToken_and.1 expanding inlining token compiled
  rwa [ran] at comes

/-- Tokens that compile do so by their steps. -/
theorem yields_of_compileTokens
    (ran : scope.compileTokens expanding inlining tokens compiled = .ok program next) :
    scope.Yields expanding inlining tokens compiled program next := by
  have comes := scope.throughout_comes.compileToken_and.2 expanding inlining tokens compiled
  rwa [ran] at comes

/-- Tokens that fail do so by a step that fails. -/
theorem fails_of_compileTokens
    (failed : scope.compileTokens expanding inlining tokens compiled = .error error next) :
    scope.Fails expanding inlining tokens compiled error next := by
  have comes := scope.throughout_comes.compileToken_and.2 expanding inlining tokens compiled
  rwa [failed] at comes

end Runs

end Randomizer.Scope
