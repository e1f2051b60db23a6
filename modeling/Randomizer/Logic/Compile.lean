import Randomizer.Counting
import Randomizer.Logic.Definition
import Randomizer.Logic.MacroTable

/-!
Compiling clauses to packed programs. Macros are put in place at every use, references are replaced
by the program of their target, and a fallback compiles the branch that resolves. Two stacks of
names, the definitions and the macros in progress, stop every circle.
-/

namespace Randomizer

/-- What stays as it is while clauses are compiled. -/
structure Scope where
  terms : TermTable
  macros : MacroTable
  resolver : Resolver
  /-- The clauses that references may still compile. -/
  sources : NameMap Clause

/-- What grows while clauses are compiled. -/
structure Compiled where
  vars : VariableTable
  definitions : NameMap Definition

abbrev Compile := EStateM Error Compiled

def Connective.operator : Connective → Operator
  | .and => .and
  | .or => .or

def Comparison.operator : Comparison → Operator
  | .equal => .equal
  | .less => .less
  | .greater => .greater

def constantOperator (value : Bool) : Operator := if value then .always else .never

namespace Scope

/-- Whether a bare name would resolve, given the variables that are registered. -/
def knows (scope : Scope) (vars : VariableTable) (name : String) : Bool :=
  scope.terms.contains name || (vars.codeOf? name).isSome ||
    (scope.resolver scope.terms name).isSome

/-- Whether an atom would resolve, given what has been compiled. -/
def resolves (scope : Scope) (compiled : Compiled) : Token → Bool
  | .bare name => scope.knows compiled.vars name
  | .macroName name => scope.macros.contains name
  | .reference target => compiled.definitions.contains target || scope.sources.contains target
  | .comparison _ left right =>
    scope.knows compiled.vars left && scope.knows compiled.vars right
  | .fallback first second => scope.resolves compiled first || scope.resolves compiled second
  | .constant _ | .connective _ => true

/-- The code of a name: its term, the variable registered under it, or a variable that the
resolver finds and that is registered now. -/
def compileName (scope : Scope) (definition name : String) : Compile Int := do
  match scope.terms.idOf? name with
  | some id => return (Symbol.term id).code
  | none =>
    let compiled ← get
    match compiled.vars.codeOf? name with
    | some code => return code
    | none =>
      match scope.resolver scope.terms name with
      | none => throw (.unresolvedName definition name)
      | some quantity =>
        set { compiled with vars := compiled.vars.register name quantity }
        return (Symbol.slot compiled.vars.size).code

/-- How many of the names are not in use. -/
def unused (names used : List String) : Nat := names.countP fun name => !used.contains name

theorem unused_cons_lt {names used : List String} {name : String} (member : name ∈ names)
    (fresh : name ∉ used) : unused names (name :: used) < unused names used := by
  refine countP_lt_countP (fun other _ out => ?_) member (by simp) (by simpa using fresh)
  simp only [List.contains_cons, Bool.not_or, Bool.and_eq_true] at out
  exact out.2

mutual

/-- The symbols of one token. The names of the definitions and of the macros in progress come
innermost first. -/
def compileToken (scope : Scope) (expanding inlining : List String) (token : Token) :
    Compile Program :=
  match token with
  | .connective kind => return [kind.operator.code]
  | .constant value => return [(constantOperator value).code]
  | .bare name => return [← scope.compileName (expanding.headD "") name]
  | .comparison kind left right => do
    let leftCode ← scope.compileName (expanding.headD "") left
    let rightCode ← scope.compileName (expanding.headD "") right
    return [leftCode, rightCode, kind.operator.code]
  | .macroName name =>
    if busy : name ∈ inlining then throw (.circularReference name)
    else
      match found : scope.macros.get? name with
      | none => throw (.unknownMacro name)
      | some clause =>
        have := unused_cons_lt (NameMap.mem_keys_of_get? found) busy
        scope.compileTokens expanding (name :: inlining) clause.tokens
  | .reference target => do
    match (← get).definitions.get? target with
    | some definition => return definition.program
    | none =>
      if busy : target ∈ expanding then throw (.circularReference target)
      else
        match found : scope.sources.get? target with
        | none => throw (.unknownReference (expanding.headD "") target)
        | some clause =>
          have := unused_cons_lt (NameMap.mem_keys_of_get? found) busy
          let program ← scope.compileTokens (target :: expanding) inlining clause.tokens
          modify fun compiled =>
            { compiled with definitions := compiled.definitions.insert target ⟨target, program⟩ }
          return program
  | .fallback first second => do
    if scope.resolves (← get) first then scope.compileToken expanding inlining first
    else scope.compileToken expanding inlining second
termination_by
  (unused scope.sources.keys expanding, unused scope.macros.keys inlining, sizeOf token)

/-- The symbols of tokens in order. -/
def compileTokens (scope : Scope) (expanding inlining : List String) (tokens : List Token) :
    Compile Program :=
  match tokens with
  | [] => return []
  | token :: rest => do
    let symbols ← scope.compileToken expanding inlining token
    let later ← scope.compileTokens expanding inlining rest
    return symbols ++ later
termination_by
  (unused scope.sources.keys expanding, unused scope.macros.keys inlining, sizeOf tokens)

end

def compileClause (scope : Scope) (name : String) (clause : Clause) : Compile Definition := do
  let program ← scope.compileTokens [name] [] clause.tokens
  return ⟨name, program⟩

end Scope

end Randomizer
