import Randomizer.Proofs.Logic.Scanning

/-!
Arranging lexemes and the trees they write. An expression puts out its tokens but for some
connectives that wait for what follows, wherever it stands among looser ones. In return, what has
been arranged is text of the grammar, with a left operand in front of each connective that waits.
-/

namespace Randomizer

namespace Pending

/-- The innermost waiting connective, if no group was opened after it, binds looser. -/
def Looser (strength : Nat) (pending : List Pending) : Prop :=
  ∀ kind below, pending = .connective kind :: below → kind.strength < strength

theorem looser_nil (strength : Nat) : Looser strength [] := nofun

theorem looser_group (strength : Nat) (pending : List Pending) :
    Looser strength (.group :: pending) := nofun

/-- A connective that binds less tight is no bar. -/
theorem looser_connective {strength : Nat} {kind : Connective} (below : kind.strength < strength)
    (pending : List Pending) : Looser strength (.connective kind :: pending) := by
  rintro other rest ⟨⟩
  exact below

/-- All connectives bind looser than an operand. -/
theorem looser_two (pending : List Pending) : Looser 2 pending :=
  fun kind _ _ => kind.strength_lt_two

/-- What is looser than a strength is looser than every larger one. -/
theorem Looser.mono {strength larger : Nat} {pending : List Pending}
    (looser : Looser strength pending) (atMost : strength ≤ larger) : Looser larger pending :=
  fun kind below waits => Nat.lt_of_lt_of_le (looser kind below waits) atMost

/-- The waiting connectives that bind tight enough come off in order. -/
theorem unwind_append {strength : Nat} {waiting : List Connective}
    (tight : ∀ kind ∈ waiting, strength ≤ kind.strength) {pending : List Pending}
    (looser : Looser strength pending) :
    unwind strength (waiting.map .connective ++ pending) =
      (waiting.map .connective, pending) := by
  induction waiting with
  | nil =>
      cases pending with
      | nil => rfl
      | cons first below =>
          cases first with
          | group => rfl
          | connective kind => exact if_pos (looser kind below rfl)
  | cons kind rest ih =>
      have notLooser : ¬ kind.strength < strength := Nat.not_lt.2 (tight kind (by simp))
      rw [List.map_cons, List.cons_append, unwind, if_neg notLooser,
        ih fun other member => tight other (by simp [member])]
      rfl

/-- A closing parenthesis gives up the connectives that wait since the last opening one. -/
theorem close?_append (waiting : List Connective) (pending : List Pending) :
    close? (waiting.map .connective ++ .group :: pending) =
      some (waiting.map .connective, pending) := by
  induction waiting with
  | nil => rfl
  | cons kind rest ih =>
      rw [List.map_cons, List.cons_append, close?, ih]
      rfl

/-- The end of the text gives up all connectives that wait. -/
theorem finish?_connectives (waiting : List Connective) :
    finish? (waiting.map .connective) = some (waiting.map .connective) := by
  induction waiting with
  | nil => rfl
  | cons kind rest ih =>
      rw [List.map_cons, finish?, ih]
      rfl

end Pending

namespace Clause

/-- Reading lexemes writes the first tokens of an expression and leaves the connectives that end it
waiting, wherever the expression stands among looser ones. -/
structure Arranges (strength : Nat) (lexemes : List Lexeme) (tokens emitted : List Token)
    (waiting : List Connective) : Prop where
  tokens : tokens = emitted ++ waiting.map .connective
  tight : ∀ kind ∈ waiting, strength ≤ kind.strength
  arrange : ∀ pending, Pending.Looser strength pending → ∀ rest,
    arrange pending true (lexemes ++ rest) =
      (arrange (waiting.map .connective ++ pending) false rest).map (emitted ++ ·)

namespace Arranges

theorem atom (token : Token) : Arranges 2 [.atom token] [token] [token] [] :=
  ⟨by simp, by simp, fun _ _ _ => rfl⟩

variable {strength : Nat} {lexemes : List Lexeme} {tokens emitted : List Token}
  {waiting : List Connective}

/-- What is arranged at a strength is arranged at the one below. -/
theorem looser (arranges : Arranges (strength + 1) lexemes tokens emitted waiting) :
    Arranges strength lexemes tokens emitted waiting where
  tokens := arranges.tokens
  tight := fun kind member => Nat.le_of_succ_le (arranges.tight kind member)
  arrange := fun pending looser => arranges.arrange pending (looser.mono (Nat.le_succ strength))

/-- In parentheses nothing waits, whatever stands around them. -/
theorem grouped (arranges : Arranges strength lexemes tokens emitted waiting) :
    Arranges 2 (.openGroup :: (lexemes ++ [.closeGroup])) tokens tokens [] := by
  refine ⟨by simp, by simp, fun pending _ rest => ?_⟩
  have inner := arranges.arrange (.group :: pending) (Pending.looser_group strength pending)
    (.closeGroup :: rest)
  have opened : Clause.arrange pending true (.openGroup :: (lexemes ++ [.closeGroup]) ++ rest) =
      Clause.arrange (.group :: pending) true (lexemes ++ .closeGroup :: rest) := by
    simp [Clause.arrange]
  rw [opened, inner, Clause.arrange, Pending.close?_append, arranges.tokens]
  exact Except.map_append_append emitted _

/-- The connective between two operands takes off what the left one left waiting and waits itself,
below what the right one leaves. -/
theorem join {second : List Lexeme} {kind : Connective} {tokensSecond emittedSecond : List Token}
    {waitingSecond : List Connective}
    (left : Arranges kind.strength lexemes tokens emitted waiting)
    (right : Arranges (kind.strength + 1) second tokensSecond emittedSecond waitingSecond) :
    Arranges kind.strength (lexemes ++ .connective kind :: second)
      (tokens ++ tokensSecond ++ [.connective kind])
      (emitted ++ waiting.map .connective ++ emittedSecond) (waitingSecond ++ [kind]) := by
  refine ⟨?_, ?_, fun pending looser rest => ?_⟩
  · rw [left.tokens, right.tokens]
    simp
  · intro other member
    rcases List.mem_append.1 member with inRight | here
    · exact Nat.le_of_succ_le (right.tight other inRight)
    · obtain rfl := List.mem_singleton.1 here
      exact Nat.le_refl _
  · have above := Pending.looser_connective (Nat.lt_succ_self kind.strength) pending
    rw [List.append_assoc, left.arrange pending looser, List.cons_append, Clause.arrange]
    simp only [Bool.false_eq_true, if_false, Pending.unwind_append left.tight looser]
    rw [right.arrange _ above, Except.map_append_append, Except.map_append_append]
    simp

/-- A whole expression is arranged as its tokens. -/
theorem ofLexemes (arranges : Arranges strength lexemes tokens emitted waiting) :
    Clause.ofLexemes lexemes = .ok ⟨tokens⟩ := by
  have read := arranges.arrange [] (Pending.looser_nil strength) []
  rw [List.append_nil, List.append_nil, Clause.arrange, Pending.finish?_connectives] at read
  rw [Clause.ofLexemes, read, arranges.tokens]
  rfl

end Arranges

/-- Text that has been read, and the tokens that came of it, when an operand is due. Each waiting
connective has its left operand in front of it, which stands among looser ones. -/
inductive Awaits (isMacro : String → Bool) : List Pending → List Char → List Token → Prop where
  | start : Awaits isMacro [] [] []
  | group {pending : List Pending} {before blanks : List Char} {emitted : List Token} :
      Awaits isMacro pending before emitted → AllBlank blanks →
      Awaits isMacro (.group :: pending) (before ++ blanks ++ ['(']) emitted
  | connective {pending : List Pending} {before operand : List Char} {emitted : List Token}
      {kind : Connective} {tree : Tree Token} : Awaits isMacro pending before emitted →
      Pending.Looser kind.strength pending → tree.Written isMacro kind.strength operand →
      Awaits isMacro (.connective kind :: pending) (before ++ operand ++ kind.text.toList)
        (emitted ++ tree.tokens)

/-- Text that has been read when the last operand, of some strength, is complete. -/
def Completes (isMacro : String → Bool) (pending : List Pending) (strength : Nat)
    (chars : List Char) (tokens : List Token) : Prop :=
  ∃ before operand emitted tree, Awaits isMacro pending before emitted ∧
    Pending.Looser strength pending ∧ Tree.Written isMacro strength operand tree ∧
    chars = before ++ operand ∧ tokens = emitted ++ tree.tokens

namespace Completes

variable {isMacro : String → Bool} {pending below : List Pending} {strength : Nat}
  {chars : List Char} {tokens emitted : List Token}

/-- The innermost connective takes its two operands. -/
theorem reduce {kind : Connective}
    (completes : Completes isMacro (.connective kind :: pending) strength chars tokens) :
    Completes isMacro pending kind.strength chars (tokens ++ [.connective kind]) := by
  obtain ⟨_, second, _, right, awaits, looser, ofSecond, rfl, rfl⟩ := completes
  cases awaits with
  | @connective _ before first emitted _ left awaits below ofFirst =>
      have tighter : kind.strength + 1 ≤ strength := looser kind pending rfl
      refine ⟨before, first ++ (kind.text.toList ++ second), emitted, .join kind left right,
        awaits, below, .join kind ofFirst (ofSecond.weaken tighter), ?_, ?_⟩
      · simp only [List.append_assoc]
      · simp only [Tree.tokens_join, List.append_assoc]

/-- Connectives of at least some strength are given up, and what they join is complete. -/
theorem unwind (completes : Completes isMacro pending strength chars tokens) {least : Nat}
    (atMost : least ≤ strength) :
    Completes isMacro (Pending.unwind least pending).2 least chars
      (tokens ++ (Pending.unwind least pending).1) := by
  have weaken {pending : List Pending} {strength : Nat} {tokens : List Token}
      (completes : Completes isMacro pending strength chars tokens) (atMost : least ≤ strength)
      (looser : Pending.Looser least pending) :
      Completes isMacro pending least chars (tokens ++ []) := by
    obtain ⟨before, operand, emitted, tree, awaits, _, written, same, sameTokens⟩ := completes
    exact ⟨before, operand, emitted, tree, awaits, looser, written.weaken atMost, same,
      by rw [List.append_nil, sameTokens]⟩
  fun_induction Pending.unwind least pending generalizing strength tokens with
  | case1 kind rest looser => exact weaken completes atMost (Pending.looser_connective looser rest)
  | case2 kind rest tight emitted below unwound ih =>
      have reduced := ih completes.reduce (Nat.not_lt.1 tight)
      rw [unwound, List.append_assoc] at reduced
      exact reduced
  | case3 pending notConnective =>
      exact weaken completes atMost fun kind rest waits => absurd waits (notConnective kind rest)

/-- A closing parenthesis completes the tree that its opening one began. -/
theorem close (completes : Completes isMacro pending strength chars tokens)
    (closed : Pending.close? pending = some (emitted, below)) :
    ∃ before blanks inner first tree, Awaits isMacro below before first ∧ AllBlank blanks ∧
      Tree.Written isMacro 0 inner tree ∧ chars = before ++ blanks ++ '(' :: inner ∧
      tokens ++ emitted = first ++ tree.tokens := by
  fun_induction Pending.close? pending generalizing strength tokens emitted below with
  | case1 => cases closed
  | case2 rest =>
      cases closed
      obtain ⟨_, inner, first, tree, awaits, _, written, rfl, rfl⟩ := completes
      cases awaits with
      | @group _ before blanks _ awaits blank =>
          exact ⟨before, blanks, inner, first, tree, awaits, blank,
            written.weaken (Nat.zero_le strength), by simp, by simp⟩
  | case3 kind rest ih =>
      obtain ⟨⟨others, outside⟩, closedRest, same⟩ := Option.map_eq_some_iff.1 closed
      cases same
      obtain ⟨before, blanks, inner, first, tree, awaits, blank, written, sameChars, sameTokens⟩ :=
        ih completes.reduce closedRest
      refine ⟨before, blanks, inner, first, tree, awaits, blank, written, sameChars, ?_⟩
      rw [← sameTokens, List.append_assoc]
      rfl

/-- The end of the text leaves one tree with all tokens. -/
theorem finish (completes : Completes isMacro pending strength chars tokens)
    (finished : Pending.finish? pending = some emitted) :
    ∃ tree : Tree Token, tree.Written isMacro 0 chars ∧ tree.tokens = tokens ++ emitted := by
  fun_induction Pending.finish? pending generalizing strength tokens emitted with
  | case1 =>
      cases finished
      obtain ⟨_, operand, _, tree, awaits, _, written, rfl, rfl⟩ := completes
      cases awaits
      exact ⟨tree, written.weaken (Nat.zero_le strength), by simp⟩
  | case2 => cases finished
  | case3 kind rest ih =>
      obtain ⟨others, finishedRest, rfl⟩ := Option.map_eq_some_iff.1 finished
      obtain ⟨tree, written, sameTokens⟩ := ih completes.reduce finishedRest
      refine ⟨tree, written, ?_⟩
      rw [sameTokens, List.append_assoc]
      rfl

end Completes

/-- Text that has been read, with an operand due or just complete. -/
def HasRead (isMacro : String → Bool) (pending : List Pending) :
    Bool → List Char → List Token → Prop
  | true => Awaits isMacro pending
  | false => Completes isMacro pending 2

/-- An operand after blanks completes what was waiting for one. -/
theorem Awaits.complete {isMacro : String → Bool} {pending : List Pending}
    {before blanks operand : List Char} {emitted : List Token} {tree : Tree Token}
    (awaits : Awaits isMacro pending before emitted) (blank : AllBlank blanks)
    (written : tree.Written isMacro 2 operand) :
    Completes isMacro pending 2 (before ++ (blanks ++ operand)) (emitted ++ tree.tokens) :=
  ⟨before, blanks ++ operand, emitted, tree, awaits, Pending.looser_two pending,
    written.blanksBefore blank, rfl, rfl⟩

/-- What is arranged to the end is the rest of a text that writes a tree. -/
theorem exists_written_of_arrange {isMacro : String → Bool} {pending : List Pending}
    {operandDue : Bool} {lexemes : List Lexeme} {tokens : List Token}
    (arranged : arrange pending operandDue lexemes = .ok tokens) {rest : List Char}
    (made : Lexeme.MadeOf isMacro rest lexemes) {chars : List Char} {emitted : List Token}
    (hasRead : HasRead isMacro pending operandDue chars emitted) :
    ∃ tree : Tree Token, tree.Written isMacro 0 (chars ++ rest) ∧
      tree.tokens = emitted ++ tokens := by
  fun_induction arrange pending operandDue lexemes generalizing tokens rest chars emitted with
  | case1 | case3 | case5 | case7 | case8 | case10 | case11 => cases arranged
  | case2 pending operandDue notDue released finished =>
      cases arranged
      rw [Bool.not_eq_true] at notDue
      subst notDue
      cases made with
      | blanks blank =>
          obtain ⟨tree, written, sameTokens⟩ := Completes.finish hasRead finished
          exact ⟨tree, written.blanksAfter blank, sameTokens⟩
  | case4 pending token others ih =>
      obtain ⟨later, arrangedLater, rfl⟩ := Except.map_eq_ok_iff.1 arranged
      cases made with
      | @lexeme before own tail _ _ blank spelled made =>
          have completes := Awaits.complete hasRead blank (.atom spelled)
          obtain ⟨tree, written, sameTokens⟩ := ih arrangedLater made completes
          refine ⟨tree, ?_, ?_⟩
          · simpa only [List.append_assoc] using written
          · rw [sameTokens, Tree.tokens_atom, List.append_assoc]
            rfl
  | case6 pending others ih =>
      cases made with
      | @lexeme before own tail _ _ blank spelled made =>
          obtain rfl : own = ['('] := spelled
          obtain ⟨tree, written, sameTokens⟩ := ih arranged made (Awaits.group hasRead blank)
          refine ⟨tree, ?_, sameTokens⟩
          simpa only [List.append_assoc] using written
  | case9 pending operandDue others notDue released below closed ih =>
      obtain ⟨later, arrangedLater, rfl⟩ := Except.map_eq_ok_iff.1 arranged
      rw [Bool.not_eq_true] at notDue
      subst notDue
      cases made with
      | @lexeme between own tail _ _ blankBetween spelled made =>
          obtain rfl : own = [')'] := spelled
          obtain ⟨before, blanks, inner, first, group, awaits, blank, ofInner, rfl, sameFirst⟩ :=
            Completes.close hasRead closed
          have completes := awaits.complete blank (.group (ofInner.blanksAfter blankBetween))
          rw [← sameFirst] at completes
          obtain ⟨tree, written, sameTokens⟩ := ih arrangedLater made completes
          refine ⟨tree, ?_, ?_⟩
          · simpa only [List.append_assoc, List.cons_append, List.nil_append] using written
          · rw [sameTokens, List.append_assoc]
  | case12 pending operandDue kind others notDue released below unwound ih =>
      obtain ⟨later, arrangedLater, rfl⟩ := Except.map_eq_ok_iff.1 arranged
      rw [Bool.not_eq_true] at notDue
      subst notDue
      cases made with
      | @lexeme between own tail _ _ blank spelled made =>
          obtain rfl : own = kind.text.toList := spelled
          have unwinds := Completes.unwind hasRead (Nat.le_of_lt kind.strength_lt_two)
          rw [unwound] at unwinds
          obtain ⟨before, operand, first, left, awaits, looser, ofLeft, rfl, sameFirst⟩ := unwinds
          have waits := Awaits.connective awaits looser (ofLeft.blanksAfter blank)
          rw [← sameFirst] at waits
          obtain ⟨tree, written, sameTokens⟩ := ih arrangedLater made waits
          refine ⟨tree, ?_, ?_⟩
          · simpa only [List.append_assoc] using written
          · rw [sameTokens, List.append_assoc]

end Clause

end Randomizer
