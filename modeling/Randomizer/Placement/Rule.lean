import Randomizer.Placement.Constraint
import Randomizer.Placement.Participant

/-!
Rules are constraints that are written down: a test of an item and a location, and how the hook
responds when it runs. Their hooks share a memory of everything that they were asked.
-/

namespace Randomizer

inductive Test where
  | always
  | never
  | itemNot (name : String)
  | locationNot (name : String)
  /-- No pair of names is the item's with the location's. -/
  | forbid (pairs : List (String × String))
  /-- Some pair of names is the item's with the location's. -/
  | allow (pairs : List (String × String))
  | minDepth (depth : Nat)
  | maxPriority (priority : Binary32)
  deriving DecidableEq, Repr

def Test.holds {ι μ : Type} [Participant ι] [Participant μ] (test : Test) (item : ι)
    (location : μ) : Bool :=
  let pair := (Participant.name item, Participant.name location)
  match test with
  | always => true
  | never => false
  | itemNot name => pair.1 != name
  | locationNot name => pair.2 != name
  | forbid pairs => !pairs.contains pair
  | allow pairs => pairs.contains pair
  | minDepth depth => depth ≤ Participant.sphere location
  | maxPriority priority => (Participant.priority location).atMost priority

inductive Response where
  | accept
  | retry
  | abort
  deriving DecidableEq, Repr

/-- The first runs of a hook, up to a number of them, get one response and later runs another. -/
structure ResponsePlan where
  count : Nat
  first : Response
  next : Response
  deriving DecidableEq, Repr

/-- One run of a hook: the label of its rule, the item and the location. -/
structure HookRun where
  label : Option String
  item : String
  location : String
  deriving DecidableEq, Repr

/-- What the hooks of rules remember: all runs, the latest last, and how often each rule's hook has
run. Rules are told apart by number. -/
structure HookMemory where
  runs : List HookRun
  counts : Array Nat
  deriving DecidableEq, Repr

namespace HookMemory

/-- The memory of a number of rules whose hooks have not run. -/
def start (rules : Nat) : HookMemory := ⟨[], Array.replicate rules 0⟩

def forgetRuns (memory : HookMemory) : HookMemory := { memory with runs := [] }

/-- Room for one more rule, whose number is the count of those before it. -/
def extend (memory : HookMemory) : HookMemory :=
  { memory with counts := memory.counts.push 0 }

def record (memory : HookMemory) (rule : Nat) (run : HookRun) : HookMemory :=
  ⟨memory.runs ++ [run], memory.counts.modify rule (· + 1)⟩

end HookMemory

structure Rule where
  label : Option String
  test : Test
  plan : Option ResponsePlan
  deriving DecidableEq, Repr

namespace Rule

def respond (label item location : String) : Response → Except Error Unit
  | .accept => .ok ()
  | .retry => .error (.outOfLocations label item)
  | .abort => .error (.constraintViolation label item location)

/-- The hook of the rule with a number: the run is recorded, then responded to. -/
def hook (rule : Rule) (number : Nat) (plan : ResponsePlan) (item location : String) :
    EStateM Error HookMemory Unit := do
  let earlier := (← get).counts.getD number 0
  modify (·.record number ⟨rule.label, item, location⟩)
  let response := if earlier < plan.count then plan.first else plan.next
  match respond (rule.label.getD "") item location response with
  | .ok () => return
  | .error error => throw error

/-- The constraint that the rule with a number stands for. -/
def toConstraint {ι μ : Type} [Participant ι] [Participant μ] (rule : Rule) (number : Nat) :
    Constraint HookMemory ι μ where
  label := rule.label
  isSatisfied := rule.test.holds
  hook := rule.plan.map fun plan item location =>
    rule.hook number plan (Participant.name item) (Participant.name location)

/-- The constraints of rules that are numbered in order. -/
def toConstraints {ι μ : Type} [Participant ι] [Participant μ] (rules : List Rule) :
    List (Constraint HookMemory ι μ) :=
  rules.zipIdx.map fun (rule, number) => rule.toConstraint number

end Rule

end Randomizer
