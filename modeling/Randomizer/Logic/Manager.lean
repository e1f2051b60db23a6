import Randomizer.Logic.Compile
import Randomizer.Logic.Item

/-!
The manager holds everything that was compiled together: a vocabulary that no longer changes, the
definitions and what was built on them, and the variables found so far. Logic compiled later may
still add variables, and nothing else.
-/

namespace Randomizer

structure Manager where
  terms : TermTable
  macros : MacroTable
  resolver : Resolver
  vars : VariableTable
  definitions : NameMap Definition
  items : NameMap Item
  transitions : NameMap Transition
  waypoints : NameMap Waypoint

namespace Manager

/-- The scope of logic compiled later: references reach compiled definitions only. -/
def scope (manager : Manager) : Scope := ⟨manager.terms, manager.macros, manager.resolver, ∅⟩

/-- A clause compiled later, on what the manager has compiled. The variables found stay even when
the clause fails. -/
def compile (name : String) (clause : Clause) : EStateM Error Manager Definition :=
  fun manager =>
    match manager.scope.compileClause name clause ⟨manager.vars, manager.definitions⟩ with
    | .ok definition compiled =>
      .ok definition { manager with vars := compiled.vars, definitions := compiled.definitions }
    | .error error compiled =>
      .error error { manager with vars := compiled.vars, definitions := compiled.definitions }

def compileText (name text : String) : EStateM Error Manager Definition := do
  match (← get).macros.parse name text with
  | .ok clause => compile name clause
  | .error error => throw error

def term (manager : Manager) (name : String) : Except Error TermId :=
  match manager.terms.idOf? name with
  | some id => .ok id
  | none => .error (.unknownTerm name)

/-- The name that stands for a program symbol in logic text. -/
def symbolText (manager : Manager) (code : Int) : String :=
  match Symbol.ofCode? code with
  | some (.term id) => manager.terms.label id
  | some (.slot slot) => ((manager.vars.atSlot? slot).map Variable.name).getD (toString code)
  | _ => toString code

def comparisonToken (kind : Comparison) : List Token → List Token
  | right :: left :: rest => .comparison kind left.text right.text :: rest
  | [right] => [.comparison kind "" right.text]
  | [] => [.comparison kind "" ""]

/-- One symbol's work on the tokens recovered so far, the latest on top. A comparison takes the
two latest tokens as its operands. -/
def recoverSymbol (manager : Manager) (tokens : List Token) (code : Int) : List Token :=
  match Symbol.ofCode? code with
  | some (.operator .and) => .connective .and :: tokens
  | some (.operator .or) => .connective .or :: tokens
  | some (.operator .always) => .constant true :: tokens
  | some (.operator .never) => .constant false :: tokens
  | some (.operator .equal) => comparisonToken .equal tokens
  | some (.operator .less) => comparisonToken .less tokens
  | some (.operator .greater) => comparisonToken .greater tokens
  | _ => .bare (manager.symbolText code) :: tokens

/-- A clause with the program of a definition; macros and references come back expanded. -/
def clauseOf (manager : Manager) (definition : Definition) : Clause :=
  ⟨(definition.program.foldl manager.recoverSymbol []).reverse⟩

def textOf (manager : Manager) (definition : Definition) : String :=
  (manager.clauseOf definition).text

end Manager

end Randomizer
