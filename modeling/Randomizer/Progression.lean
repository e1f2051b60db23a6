import Randomizer.Amount
import Randomizer.Term

/-!
Progression: the value that each term has reached so far. Storage grows to the terms that are
written, and a term without storage reads as zero.
-/

namespace Randomizer

structure Progression where
  values : Array Int
  deriving DecidableEq, Repr

namespace Progression

def empty : Progression := ⟨#[]⟩

instance : EmptyCollection Progression := ⟨empty⟩

instance : Inhabited Progression := ⟨empty⟩

def zeros (count : Nat) : Progression := ⟨Array.replicate count 0⟩

def read (progression : Progression) : Reading := fun term => progression.values.getD term.index 0

/-- A term counts as held once its value is positive. -/
def holds (progression : Progression) (term : TermId) : Bool := progression.read term > 0

def reaches (progression : Progression) (threshold : TermAmount) : Bool :=
  progression.read threshold.term ≥ threshold.amount

/-- Storage up to and including a term. -/
def extend (progression : Progression) (term : TermId) : Progression :=
  ⟨progression.values ++ Array.replicate (term.index + 1 - progression.values.size) 0⟩

def set (progression : Progression) (term : TermId) (amount : Int) : Progression :=
  ⟨(progression.extend term).values.setIfInBounds term.index amount⟩

/-- The amounts set one after another from nothing. -/
def ofAmounts (amounts : List TermAmount) : Progression :=
  amounts.foldl (fun progression amount => progression.set amount.term amount.amount) empty

/-- An increase past the range of amounts is refused after the storage has grown. -/
def increase (term : TermId) (amount : Int) : EStateM Overflow Progression Unit :=
  fun progression =>
    let total := progression.read term + amount
    if Amount.InRange total then .ok () (progression.set term total)
    else .error .add (progression.extend term)

def apply (effect : TermAmount) : EStateM Overflow Progression Unit :=
  increase effect.term effect.amount

/-- Zero everywhere, with the storage kept. -/
def reset (progression : Progression) : Progression := zeros progression.values.size

@[simp] theorem read_extend (progression : Progression) (term : TermId) :
    (progression.extend term).read = progression.read := by
  funext other
  simp only [read, extend, Array.getD_eq_getD_getElem?, Array.getElem?_append,
    Array.getElem?_replicate]
  split
  · rfl
  · next outside =>
    rw [Array.getElem?_eq_none (Nat.le_of_not_lt outside)]
    split <;> rfl

theorem read_set (progression : Progression) (term : TermId) (amount : Int) (other : TermId) :
    (progression.set term amount).read other =
      if other = term then amount else progression.read other := by
  have grown := congrFun (read_extend progression term) other
  simp only [read, set, Array.getD_eq_getD_getElem?, Array.getElem?_setIfInBounds] at grown ⊢
  by_cases same : other = term
  · subst same
    simp only [if_true]
    rw [if_pos]
    · rfl
    · simp only [extend, Array.size_append, Array.size_replicate]
      omega
  · have apart : term.index ≠ other.index := fun equal => same (by
      cases other
      cases term
      simpa using equal.symm)
    rw [if_neg apart, if_neg same, grown]

end Progression

end Randomizer
