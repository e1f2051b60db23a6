import Randomizer.Error
import Randomizer.Logic.Variable
import Randomizer.Program.Machine

/-!
Definitions: compiled programs with names, and what is built on them.
-/

namespace Randomizer

structure Definition where
  name : String
  program : Program
  deriving DecidableEq, Repr

namespace Definition

/-- A program from outside is taken only when it is well formed. -/
def ofProgram (name : String) (program : Program) : Except Error Definition :=
  match program.check with
  | .ok () => .ok ⟨name, program⟩
  | .error position => .error (.malformedProgram name position)

def value (definition : Definition) (vars : VariableTable) (reading : Reading) : Int :=
  definition.program.value (vars.inputs definition.name reading)

def holds (definition : Definition) (vars : VariableTable) (reading : Reading) : Bool :=
  definition.value vars reading > 0

/-- The terms that a program's symbol reads, itself or through its variable. -/
def termsOfCode (vars : VariableTable) (code : Int) : List TermId :=
  match Symbol.ofCode? code with
  | some (.term id) => [id]
  | some (.slot slot) => ((vars.atSlot? slot).map Variable.terms).getD []
  | _ => []

/-- The terms that the program reads, each once, in the order of first use. -/
def terms (definition : Definition) (vars : VariableTable) : List TermId :=
  (definition.program.flatMap (termsOfCode vars)).eraseDups

end Definition

/-- A term that becomes held whenever its logic holds. -/
structure Waypoint where
  term : TermId
  logic : Definition
  deriving DecidableEq, Repr

def Waypoint.name (waypoint : Waypoint) : String := waypoint.logic.name

/-- The ways in which a transition can be passed. -/
inductive Passage where
  | twoWay
  | oneWayIn
  | oneWayOut
  deriving DecidableEq, Repr

def Passage.name : Passage → String
  | .twoWay => "TwoWay"
  | .oneWayIn => "OneWayIn"
  | .oneWayOut => "OneWayOut"

def Passage.ofName? (name : String) : Option Passage :=
  [Passage.twoWay, .oneWayIn, .oneWayOut].find? (·.name = name)

/-- A gate of a scene, with the term for having reached it and the logic that reaches it. -/
structure Transition where
  name : String
  scene : String
  gate : String
  term : TermId
  logic : Definition
  passage : Passage
  deriving DecidableEq, Repr

/-- What a location asks for beyond its own logic. -/
inductive Cost where
  | threshold (least : TermAmount)
  | logic (definition : Definition)
  deriving DecidableEq, Repr

namespace Cost

def isMet (cost : Cost) (vars : VariableTable) (reading : Reading) : Bool :=
  match cost with
  | .threshold least => reading least.term ≥ least.amount
  | .logic definition => definition.holds vars reading

def terms (cost : Cost) (vars : VariableTable) : List TermId :=
  match cost with
  | .threshold least => [least.term]
  | .logic definition => definition.terms vars

end Cost

end Randomizer
