import Randomizer.Logic.MacroTable
import Randomizer.Proofs.Logic.Tree
import Randomizer.Proofs.Outcome

namespace Randomizer

/-- Text that is read as one name. -/
def Lexeme.IsName (name : String) : Prop := name ≠ "" ∧ ∀ char ∈ name.toList, isNameChar char

/-- A name is a text of name characters that is not empty. -/
theorem Lexeme.isName_iff_all {name : String} :
    (name ≠ "" ∧ name.toList.all isNameChar) ↔ IsName name := by
  rw [IsName, List.all_eq_true]

instance (name : String) : Decidable (Lexeme.IsName name) :=
  decidable_of_decidable_of_iff Lexeme.isName_iff_all

namespace Token

/-- The names that stand for constants. -/
def keywords : List String := ["TRUE", "ANY", "FALSE", "NONE"]

/-- An atom that some text is read as. -/
def Readable : Token → Prop
  | .connective _ => False
  | .bare name | .macroName name => Lexeme.IsName name ∧ name ∉ keywords
  | .comparison _ left right => Lexeme.IsName left ∧ Lexeme.IsName right
  | .constant _ => True
  | .reference target => Lexeme.IsName target
  | .fallback first second => first.Readable ∧ second.Readable

/-- What can be read is an atom. -/
theorem Readable.isAtom {token : Token} (readable : token.Readable) : token.IsAtom := by
  induction token with
  | connective kind => exact readable.elim
  | fallback first second ihFirst ihSecond =>
      exact ⟨ihFirst readable.1, ihSecond readable.2⟩
  | _ => trivial

/-- What can be read is no connective. -/
theorem Readable.isConnective {token : Token} (readable : token.Readable) :
    token.isConnective = false :=
  readable.isAtom.isConnective

/-- The macros of an atom are known, also in the branches of a fallback. -/
def MacrosIn (isMacro : String → Bool) : Token → Prop
  | .macroName name => isMacro name
  | .fallback first second => first.MacrosIn isMacro ∧ second.MacrosIn isMacro
  | _ => True

/-- The macros of a token are known wherever more are known. -/
theorem MacrosIn.mono {isMacro wider : String → Bool} (implies : ∀ name, isMacro name → wider name)
    {token : Token} (known : token.MacrosIn isMacro) : token.MacrosIn wider := by
  induction token with
  | macroName name => exact implies name known
  | fallback first second ihFirst ihSecond => exact ⟨ihFirst known.1, ihSecond known.2⟩
  | _ => trivial

/-- A name is read as a macro only if there is one. -/
theorem macrosIn_ofName (isMacro : String → Bool) (name : String) :
    (ofName isMacro name).MacrosIn isMacro := by
  unfold ofName
  split
  · trivial
  · split
    · trivial
    · split
      · next known => exact known
      · trivial

/-- A name is read as a token that can be read. -/
theorem readable_ofName (isMacro : String → Bool) {name : String} (isName : Lexeme.IsName name) :
    (ofName isMacro name).Readable := by
  unfold ofName
  split
  · trivial
  · next notTrue =>
    split
    · trivial
    · next notFalse =>
      have notKeyword : name ∉ keywords := by simp_all [keywords]
      split
      · exact ⟨isName, notKeyword⟩
      · exact ⟨isName, notKeyword⟩

end Token

namespace Lexeme

/-- The name characters ahead are a name, if there are any. -/
theorem isName_nameAhead {chars : List Char} (some : nameAhead chars ≠ "") :
    IsName (nameAhead chars) := by
  refine ⟨some, fun char member => ?_⟩
  rw [nameAhead, String.toList_ofList] at member
  exact List.all_eq_true.1 List.all_takeWhile char member

/-- A name character begins a name. -/
theorem nameAhead_cons_ne_empty {char : Char} (rest : List Char) (inName : isNameChar char) :
    nameAhead (char :: rest) ≠ "" := by
  rw [nameAhead, List.takeWhile_cons_of_pos inName]
  intro empty
  have chars := congrArg String.toList empty
  simp at chars

end Lexeme

namespace Clause

/-- A clause that some text is read as. -/
def Readable (clause : Clause) : Prop :=
  ∃ tree : Tree Token, tree.tokens = clause.tokens ∧ tree.All Token.Readable

/-- The tokens of a readable clause are connectives and readable atoms. -/
theorem Readable.token {clause : Clause} (readable : clause.Readable) :
    ∀ token ∈ clause.tokens, token.isConnective = false → token.Readable := by
  obtain ⟨tree, written, atoms⟩ := readable
  rw [← written]
  exact tree.forall_mem_tokens_of_all atoms

/-- A clause that can be read is formed. -/
theorem Readable.formed {clause : Clause} (readable : clause.Readable) : clause.Formed := by
  obtain ⟨tree, written, atoms⟩ := readable
  exact ⟨tree, written, atoms.mono fun _ => Token.Readable.isAtom⟩

/-- All macros of the clause are known. -/
def MacrosIn (isMacro : String → Bool) (clause : Clause) : Prop :=
  ∀ token ∈ clause.tokens, token.MacrosIn isMacro

/-- The macros of a clause are known wherever more are known. -/
theorem MacrosIn.mono {isMacro wider : String → Bool} (implies : ∀ name, isMacro name → wider name)
    {clause : Clause} (known : clause.MacrosIn isMacro) : clause.MacrosIn wider :=
  fun token member => (known token member).mono implies

end Clause

end Randomizer
