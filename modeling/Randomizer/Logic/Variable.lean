import Randomizer.Program.Machine
import Randomizer.Text.Number

/-!
Variables: integers computed from progression, found by name the first time that logic uses them.
Each variable found gets the next slot and is known from then on under the spelling that found it.
-/

namespace Randomizer

/-- The value may depend on the definition that asks, given by name. -/
structure Variable where
  name : String
  value : String → Reading → Int
  terms : List TermId

def Variable.constant (value : Int) : Variable := ⟨toString value, fun _ _ => value, []⟩

/-- How names that are not terms are matched with variables. -/
abbrev Resolver := TermTable → String → Option Variable

namespace Resolver

/-- Only decimal amounts are variables. -/
def integers : Resolver := fun _ name => (Amount.ofText? name).map Variable.constant

/-- The first resolver decides, and the second one where the first finds nothing. -/
def orElse (first second : Resolver) : Resolver :=
  fun terms name => (first terms name).or (second terms name)

end Resolver

structure Registration where
  spelling : String
  quantity : Variable

/-- The slot of a registration is its position. -/
structure VariableTable where
  registrations : List Registration

namespace VariableTable

def empty : VariableTable := ⟨[]⟩

instance : EmptyCollection VariableTable := ⟨empty⟩

instance : Inhabited VariableTable := ⟨empty⟩

def size (table : VariableTable) : Nat := table.registrations.length

def slotOf? (table : VariableTable) (spelling : String) : Option Nat :=
  table.registrations.findIdx? fun registration => registration.spelling == spelling

def codeOf? (table : VariableTable) (spelling : String) : Option Int :=
  (table.slotOf? spelling).map fun slot => (Symbol.slot slot).code

def atSlot? (table : VariableTable) (slot : Nat) : Option Variable :=
  table.registrations[slot]?.map Registration.quantity

/-- The variable behind a program code. -/
def atCode? (table : VariableTable) (code : Int) : Option Variable :=
  match Symbol.ofCode? code with
  | some (.slot slot) => table.atSlot? slot
  | _ => none

def register (table : VariableTable) (spelling : String) (quantity : Variable) :
    VariableTable :=
  ⟨table.registrations ++ [⟨spelling, quantity⟩]⟩

/-- The value in a slot; a slot without a variable reads as zero. -/
def value (table : VariableTable) (requester : String) (reading : Reading) (slot : Nat) : Int :=
  match table.atSlot? slot with
  | some quantity => quantity.value requester reading
  | none => 0

/-- What programs read on behalf of a requester. -/
def inputs (table : VariableTable) (requester : String) (reading : Reading) : Inputs :=
  ⟨reading, table.value requester reading⟩

end VariableTable

end Randomizer
