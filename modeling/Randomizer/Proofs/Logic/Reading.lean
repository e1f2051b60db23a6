import Randomizer.Proofs.Logic.Arrangement

namespace Randomizer

/-- Characters that are scanned as the lexemes in front of every text that bounds an atom. -/
def Lexeme.Scans (isMacro : String → Bool) (size : Nat) (chars : List Char)
    (lexemes : List Lexeme) : Prop :=
  ∀ rest, Bounds rest →
    scan isMacro size (chars ++ rest) = (scan isMacro size rest).map (lexemes ++ ·)

namespace Lexeme.Scans

variable {isMacro : String → Bool} {size : Nat} {chars : List Char} {lexemes : List Lexeme}

/-- A spelled token is scanned as one lexeme. -/
theorem atom {token : Token} (spelled : Token.Spelled isMacro chars token) :
    Scans isMacro size chars [.atom token] :=
  fun _ bounds => scan_spelled spelled bounds

/-- Parentheses are scanned around what they hold. -/
theorem group (scans : Scans isMacro size chars lexemes) :
    Scans isMacro size ('(' :: (chars ++ [')'])) (.openGroup :: (lexemes ++ [.closeGroup])) := by
  intro rest _
  have inner := scans (')' :: rest) (bounds_close rest)
  rw [List.cons_append, List.append_assoc, List.singleton_append, scan_open, inner, scan_close]
  cases scan isMacro size rest with
  | error fault => rfl
  | ok later => simp [Except.map]

/-- A connective is scanned between its sides. -/
theorem join {second : List Char} {others : List Lexeme} (left : Scans isMacro size chars lexemes)
    (kind : Connective) (right : Scans isMacro size second others) :
    Scans isMacro size (chars ++ (kind.text.toList ++ second))
      (lexemes ++ .connective kind :: others) := by
  intro rest bounds
  rw [List.append_assoc, List.append_assoc, left _ (bounds_connective kind _),
    scan_connective, right rest bounds]
  cases scan isMacro size rest with
  | error fault => rfl
  | ok later => simp [Except.map]

/-- Blanks on both sides do not change what is scanned. -/
theorem blanks (scans : Scans isMacro size chars lexemes) {before after : List Char}
    (blankBefore : AllBlank before) (blankAfter : AllBlank after) :
    Scans isMacro size (before ++ (chars ++ after)) lexemes := by
  intro rest bounds
  rw [List.append_assoc, List.append_assoc, scan_blanks blankBefore,
    scans _ (bounds_blanks blankAfter bounds), scan_blanks blankAfter]

/-- Characters that end with the text are scanned as their lexemes. -/
theorem scan_eq (scans : Scans isMacro size chars lexemes) :
    scan isMacro size chars = .ok lexemes := by
  have read := scans [] bounds_nil
  rw [List.append_nil, scan.eq_def _ _ []] at read
  simpa [Except.map] using read

end Lexeme.Scans

namespace Tree

variable {isMacro : String → Bool} {strength : Nat} {chars : List Char} {tree : Tree Token}

/-- What writes a tree is scanned as lexemes that are arranged as the tokens of the tree. -/
theorem Written.exists_scans (written : tree.Written isMacro strength chars) (size : Nat) :
    ∃ lexemes emitted waiting, Lexeme.Scans isMacro size chars lexemes ∧
      Clause.Arranges strength lexemes tree.tokens emitted waiting := by
  induction written with
  | atom spelled => exact ⟨_, _, _, .atom spelled, .atom _⟩
  | group _ ih =>
      obtain ⟨lexemes, emitted, waiting, scans, arranges⟩ := ih
      exact ⟨_, _, _, scans.group, arranges.grouped⟩
  | join kind _ _ ihLeft ihRight =>
      obtain ⟨first, _, _, scansLeft, arrangesLeft⟩ := ihLeft
      obtain ⟨second, _, _, scansRight, arrangesRight⟩ := ihRight
      exact ⟨_, _, _, scansLeft.join kind scansRight, arrangesLeft.join arrangesRight⟩
  | blanks blankBefore blankAfter _ ih =>
      obtain ⟨lexemes, emitted, waiting, scans, arranges⟩ := ih
      exact ⟨lexemes, emitted, waiting, scans.blanks blankBefore blankAfter, arranges⟩
  | looser _ ih =>
      obtain ⟨lexemes, emitted, waiting, scans, arranges⟩ := ih
      exact ⟨lexemes, emitted, waiting, scans, arranges.looser⟩

end Tree

namespace Clause

variable {isMacro : String → Bool} {text : String}

/-- A text that writes a tree is read as the clause of the tree. -/
theorem ofText_of_written {tree : Tree Token} (written : tree.Written isMacro 0 text.toList) :
    ofText isMacro text = .ok ⟨tree.tokens⟩ := by
  obtain ⟨lexemes, _, _, scans, arranges⟩ := written.exists_scans text.length
  rw [ofText, Lexeme.ofText, scans.scan_eq]
  exact arranges.ofLexemes

/-- A text that is read as a clause writes a tree of the clause. -/
theorem exists_written_of_ofText {clause : Clause} (read : ofText isMacro text = .ok clause) :
    ∃ tree : Tree Token, tree.Written isMacro 0 text.toList ∧ tree.tokens = clause.tokens := by
  obtain ⟨lexemes, scanned, ordered⟩ := Except.bind_eq_ok_iff.1 read
  obtain ⟨tokens, arranged, rfl⟩ := Except.map_eq_ok_iff.1 ordered
  have nothing : HasRead isMacro [] true [] [] := Awaits.start
  obtain ⟨tree, written, sameTokens⟩ :=
    exists_written_of_arrange arranged (Lexeme.madeOf_of_scan scanned) nothing
  exact ⟨tree, written, sameTokens⟩

/-- A text is read as the tokens of a tree just if it writes the tree. -/
theorem ofText_eq_ok_iff {clause : Clause} : ofText isMacro text = .ok clause ↔
    ∃ tree : Tree Token, tree.Written isMacro 0 text.toList ∧ tree.tokens = clause.tokens := by
  constructor
  · exact exists_written_of_ofText
  · rintro ⟨tree, written, sameTokens⟩
    rw [ofText_of_written written, sameTokens]

/-- A clause that was read has readable atoms. -/
theorem readable_of_ofText {clause : Clause} (read : ofText isMacro text = .ok clause) :
    clause.Readable := by
  obtain ⟨tree, written, sameTokens⟩ := exists_written_of_ofText read
  exact ⟨tree, sameTokens, written.all fun _ _ => Token.Spelled.readable⟩

/-- What holds of connectives and of all atoms that can be spelled holds of what was read. -/
theorem forall_mem_of_ofText {property : Token → Prop}
    (connective : ∀ kind, property (.connective kind))
    (spelled : ∀ chars token, Token.Spelled isMacro chars token → property token)
    {clause : Clause} (read : ofText isMacro text = .ok clause) :
    ∀ token ∈ clause.tokens, property token := by
  obtain ⟨tree, written, sameTokens⟩ := exists_written_of_ofText read
  intro token member
  rw [← sameTokens] at member
  cases operand : token.isConnective with
  | true =>
      cases token with
      | connective kind => exact connective kind
      | _ => cases operand
  | false => exact tree.forall_mem_tokens_of_all (written.all spelled) token member operand

/-- A clause that was read has only macros that were known then. -/
theorem macrosIn_of_ofText {clause : Clause} (read : ofText isMacro text = .ok clause) :
    clause.MacrosIn isMacro :=
  forall_mem_of_ofText (fun _ => trivial) (fun _ _ => Token.Spelled.macrosIn) read

/-- A clause that is read passes the check of its tokens. -/
theorem ofTokens_of_ofText {clause : Clause} (read : ofText isMacro text = .ok clause) :
    ofTokens clause.tokens = .ok clause := by
  obtain ⟨tree, written, sameTokens⟩ := exists_written_of_ofText read
  rw [ofTokens, ← sameTokens, check_tokens written.proper, sameTokens]
  rfl

end Clause

namespace MacroTable

/-- Parsing accepts exactly the text that writes a tree, under the names of the table, and gives the
tokens of that tree, which is the only one and passes the check of clauses. All other text is a
fault that carries the name of the definition. -/
theorem parse_exact (table : MacroTable) (name text : String) :
    (∀ clause, table.parse name text = .ok clause ↔
      ∃ tree : Tree Token, tree.Written table.contains 0 text.toList ∧
        clause = ⟨tree.tokens⟩) ∧
    (∀ first second : Tree Token, first.Written table.contains 0 text.toList →
      second.Written table.contains 0 text.toList → first = second) ∧
    ((∀ tree : Tree Token, ¬ tree.Written table.contains 0 text.toList) →
      ∃ fault : ParseFault, table.parse name text = .error (.parse name fault.message)) ∧
    ∀ clause, table.parse name text = .ok clause →
      Clause.ofTokens clause.tokens = .ok clause := by
  have parse_ok {clause : Clause} : table.parse name text = .ok clause ↔
      Clause.ofText table.contains text = .ok clause := Except.mapError_eq_ok_iff
  refine ⟨fun clause => ?_, fun first second ofFirst ofSecond => ?_, fun notWritten => ?_,
    fun clause parsed => Clause.ofTokens_of_ofText (parse_ok.1 parsed)⟩
  · rw [parse_ok, Clause.ofText_eq_ok_iff]
    exact exists_congr fun tree => and_congr_right fun _ =>
      ⟨fun same => by rw [same], fun same => by rw [same]⟩
  · have read := Clause.ofText_of_written ofFirst
    rw [Clause.ofText_of_written ofSecond] at read
    injection read with same
    injection same with same
    exact (Tree.tokens_injective ofSecond.proper ofFirst.proper same).symm
  · cases read : Clause.ofText table.contains text with
    | ok clause =>
        obtain ⟨tree, written, _⟩ := Clause.exists_written_of_ofText read
        exact absurd written (notWritten tree)
    | error fault =>
        refine ⟨fault, ?_⟩
        rw [parse, parseWith, read]
        rfl

/-- A table with one macro. -/
def shorthand : MacroTable := .ofList [("M", ⟨[.bare "K"]⟩)]

/-- One text is read with all kinds of operators in it, and another writes nothing. -/
theorem parse_exact_shorthand :
    (∃ tree : Tree Token, tree.Written shorthand.contains 0 "  (x <y)+M | ANY ?M".toList ∧
      tree.tokens = [.comparison .less "x" "y", .macroName "M", .connective .and,
        .fallback (.constant true) (.macroName "M"), .connective .or]) ∧
    ∀ tree : Tree Token, ¬ tree.Written shorthand.contains 0 "K + * M".toList := by
  have accepted : (shorthand.parse "A" "  (x <y)+M | ANY ?M").toOption =
      some ⟨[.comparison .less "x" "y", .macroName "M", .connective .and,
        .fallback (.constant true) (.macroName "M"), .connective .or]⟩ := by decide +kernel
  have refused : (shorthand.parse "A" "K + * M").toOption = none := by decide +kernel
  constructor
  · obtain ⟨tree, written, same⟩ :=
      ((parse_exact shorthand "A" _).1 _).1 (Except.toOption_eq_some_iff.1 accepted)
    injection same with same
    exact ⟨tree, written, same.symm⟩
  · intro tree written
    have parsed := ((parse_exact shorthand "A" _).1 _).2 ⟨tree, written, rfl⟩
    rw [parsed] at refused
    cases refused

end MacroTable

end Randomizer
