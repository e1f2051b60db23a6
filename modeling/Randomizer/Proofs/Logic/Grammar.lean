import Randomizer.Proofs.Logic.Association
import Randomizer.Proofs.Logic.Readable

/-!
The grammar of logic text: which characters write which tree. Conjunctions bind tighter than
disjunctions, a run of one connective groups from the left, and parentheses group as they stand.
Blanks may stand around everything but the name after a star.
-/

namespace Randomizer

/-- Characters that only set lexemes apart. -/
def AllBlank (chars : List Char) : Prop := ∀ char ∈ chars, isBlank char

theorem allBlank_nil : AllBlank [] := nofun

theorem allBlank_cons {char : Char} {rest : List Char} (blank : isBlank char)
    (others : AllBlank rest) : AllBlank (char :: rest) :=
  List.forall_mem_cons.2 ⟨blank, others⟩

theorem allBlank_space : AllBlank [' '] := List.forall_mem_singleton.2 rfl

namespace Token

/-- What a name stands for: a constant if it is a keyword, else a macro if there is one, else
itself. -/
inductive NamedBy (isMacro : String → Bool) : String → Token → Prop where
  | always {name : String} : name = "TRUE" ∨ name = "ANY" →
      NamedBy isMacro name (.constant true)
  | never {name : String} : name = "FALSE" ∨ name = "NONE" →
      NamedBy isMacro name (.constant false)
  | macroName {name : String} : name ∉ keywords → isMacro name →
      NamedBy isMacro name (.macroName name)
  | bare {name : String} : name ∉ keywords → isMacro name = false →
      NamedBy isMacro name (.bare name)

/-- Every name is the name of a token. -/
theorem namedBy_ofName (isMacro : String → Bool) (name : String) :
    NamedBy isMacro name (ofName isMacro name) := by
  unfold ofName
  split
  · next isTrue => exact .always isTrue
  · next notTrue =>
    split
    · next isFalse => exact .never isFalse
    · next notFalse =>
      have notKeyword : name ∉ keywords := by simp_all [keywords]
      split
      · next known => exact .macroName notKeyword known
      · next unknown => exact .bare notKeyword (Bool.eq_false_iff.2 unknown)

/-- A name is that of one token alone. -/
theorem NamedBy.eq_ofName {isMacro : String → Bool} {name : String} {token : Token}
    (named : NamedBy isMacro name token) : token = ofName isMacro name := by
  cases named with
  | always isTrue => rw [ofName, if_pos isTrue]
  | never isFalse =>
      have notTrue : ¬ (name = "TRUE" ∨ name = "ANY") := by
        rcases isFalse with rfl | rfl <;> decide
      rw [ofName, if_neg notTrue, if_pos isFalse]
  | macroName notKeyword known =>
      simp only [keywords, List.mem_cons, not_or] at notKeyword
      simp [ofName, notKeyword, known]
  | bare notKeyword unknown =>
      simp only [keywords, List.mem_cons, not_or] at notKeyword
      simp [ofName, notKeyword, unknown]

/-- The characters of an atom. -/
inductive Spelled (isMacro : String → Bool) : List Char → Token → Prop where
  | name {name : String} {token : Token} : Lexeme.IsName name → NamedBy isMacro name token →
      Spelled isMacro name.toList token
  | comparison {left right : String} {before after : List Char} (kind : Comparison) :
      Lexeme.IsName left → Lexeme.IsName right → AllBlank before → AllBlank after →
      Spelled isMacro (left.toList ++ (before ++ kind.symbol :: (after ++ right.toList)))
        (.comparison kind left right)
  | fallback {left right : String} {first second : Token} {before after : List Char} :
      Lexeme.IsName left → Lexeme.IsName right → NamedBy isMacro left first →
      NamedBy isMacro right second → AllBlank before → AllBlank after →
      Spelled isMacro (left.toList ++ (before ++ '?' :: (after ++ right.toList)))
        (.fallback first second)
  | reference {target : String} : Lexeme.IsName target →
      Spelled isMacro ('*' :: target.toList) (.reference target)

/-- A token that is spelled can be read. -/
theorem Spelled.readable {isMacro : String → Bool} {chars : List Char} {token : Token}
    (spelled : Spelled isMacro chars token) : token.Readable := by
  cases spelled with
  | name isName named =>
      rw [named.eq_ofName]
      exact readable_ofName isMacro isName
  | comparison kind isLeft isRight => exact ⟨isLeft, isRight⟩
  | fallback isLeft isRight first second =>
      rw [first.eq_ofName, second.eq_ofName]
      exact ⟨readable_ofName isMacro isLeft, readable_ofName isMacro isRight⟩
  | reference isName => exact isName

/-- All macros of a token that is spelled are known. -/
theorem Spelled.macrosIn {isMacro : String → Bool} {chars : List Char} {token : Token}
    (spelled : Spelled isMacro chars token) : token.MacrosIn isMacro := by
  cases spelled with
  | @name name _ _ named =>
      rw [named.eq_ofName]
      exact macrosIn_ofName isMacro name
  | @fallback left right _ _ _ _ _ _ first second =>
      rw [first.eq_ofName, second.eq_ofName]
      exact ⟨macrosIn_ofName isMacro left, macrosIn_ofName isMacro right⟩
  | comparison | reference => trivial

/-- Two names with a joint between them, next to blanks or not, spell one atom. -/
theorem Spelled.joined {isMacro : String → Bool} {left right : String} {joint : Lexeme.Joint}
    {symbol : Char} (isJoint : Lexeme.Joint.ofChar? symbol = some joint)
    (isLeft : Lexeme.IsName left) (isRight : Lexeme.IsName right) {before after : List Char}
    (blankBefore : AllBlank before) (blankAfter : AllBlank after) :
    Spelled isMacro (left.toList ++ (before ++ symbol :: (after ++ right.toList)))
      (joint.token isMacro left right) := by
  unfold Lexeme.Joint.ofChar? at isJoint
  split at isJoint
  · next question =>
    cases isJoint
    rw [question]
    exact .fallback isLeft isRight (namedBy_ofName isMacro left) (namedBy_ofName isMacro right)
      blankBefore blankAfter
  · obtain ⟨kind, isKind, rfl⟩ := Option.map_eq_some_iff.1 isJoint
    have same : kind.symbol = symbol := by
      unfold Comparison.ofChar? at isKind
      split at isKind <;> cases isKind <;> rfl
    rw [← same]
    exact .comparison kind isLeft isRight blankBefore blankAfter

end Token

namespace Tree

/-- Characters that write a tree. At strength zero stands any expression, at one no disjunction
outside parentheses, and at two an atom or an expression in parentheses. -/
inductive Written (isMacro : String → Bool) : Nat → List Char → Tree Token → Prop where
  | atom {chars : List Char} {token : Token} : Token.Spelled isMacro chars token →
      Written isMacro 2 chars (.atom token)
  | group {chars : List Char} {tree : Tree Token} : Written isMacro 0 chars tree →
      Written isMacro 2 ('(' :: (chars ++ [')'])) tree
  | join {first second : List Char} {left right : Tree Token} (kind : Connective) :
      Written isMacro kind.strength first left →
      Written isMacro (kind.strength + 1) second right →
      Written isMacro kind.strength (first ++ (kind.text.toList ++ second))
        (.join kind left right)
  | blanks {strength : Nat} {before chars after : List Char} {tree : Tree Token} :
      AllBlank before → AllBlank after → Written isMacro strength chars tree →
      Written isMacro strength (before ++ (chars ++ after)) tree
  | looser {strength : Nat} {chars : List Char} {tree : Tree Token} :
      Written isMacro (strength + 1) chars tree → Written isMacro strength chars tree

variable {isMacro : String → Bool} {strength : Nat} {chars : List Char} {tree : Tree Token}

/-- What is written to bind at a strength is so at every smaller one. -/
theorem Written.weaken (written : tree.Written isMacro strength chars) {less : Nat}
    (atMost : less ≤ strength) : tree.Written isMacro less chars := by
  induction atMost with
  | refl => exact written
  | step _ ih => exact ih written.looser

/-- Blanks may follow what is written. -/
theorem Written.blanksAfter (written : tree.Written isMacro strength chars) {after : List Char}
    (blank : AllBlank after) : tree.Written isMacro strength (chars ++ after) :=
  .blanks allBlank_nil blank written

/-- Blanks may precede what is written. -/
theorem Written.blanksBefore (written : tree.Written isMacro strength chars) {before : List Char}
    (blank : AllBlank before) : tree.Written isMacro strength (before ++ chars) := by
  rw [← List.append_nil chars]
  exact .blanks blank allBlank_nil written

/-- What holds of all spelled tokens holds of all atoms of a written tree. -/
theorem Written.all {property : Token → Prop}
    (ofSpelled : ∀ chars token, Token.Spelled isMacro chars token → property token)
    (written : tree.Written isMacro strength chars) : tree.All property := by
  induction written with
  | atom spelled => exact ofSpelled _ _ spelled
  | group _ ih => exact ih
  | join kind _ _ ihLeft ihRight => exact ⟨ihLeft, ihRight⟩
  | blanks _ _ _ ih => exact ih
  | looser _ ih => exact ih

/-- The atoms of a written tree are no connectives. -/
theorem Written.proper (written : tree.Written isMacro strength chars) : tree.Proper :=
  written.all fun _ _ spelled => spelled.readable.isConnective

end Tree

end Randomizer
