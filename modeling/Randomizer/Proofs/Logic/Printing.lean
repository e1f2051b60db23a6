import Randomizer.Proofs.Logic.Reading

namespace Randomizer

namespace Token

/-- An atom that a name alone is read as. -/
def Nominal (isMacro : String → Bool) : Token → Prop
  | .bare name => Lexeme.IsName name ∧ name ∉ keywords ∧ isMacro name = false
  | .macroName name => Lexeme.IsName name ∧ name ∉ keywords ∧ isMacro name
  | .constant _ => True
  | .connective _ | .comparison _ _ _ | .reference _ | .fallback _ _ => False

/-- An atom that some text is read as under the macros. -/
def Native (isMacro : String → Bool) : Token → Prop
  | .comparison _ left right => Lexeme.IsName left ∧ Lexeme.IsName right
  | .reference target => Lexeme.IsName target
  | .fallback first second => first.Nominal isMacro ∧ second.Nominal isMacro
  | token => token.Nominal isMacro

/-- An atom that text can be read as and that needs no other clause: no macro, no reference and no
fallback. -/
def Plain (isMacro : String → Bool) : Token → Prop
  | .bare name => Lexeme.IsName name ∧ name ∉ keywords ∧ isMacro name = false
  | .comparison _ left right => Lexeme.IsName left ∧ Lexeme.IsName right
  | .constant _ => True
  | .connective _ | .macroName _ | .reference _ | .fallback _ _ => False

instance (isMacro : String → Bool) : DecidablePred (Nominal isMacro)
  | .bare _ | .macroName _ => inferInstanceAs (Decidable (_ ∧ _ ∧ _))
  | .constant _ => .isTrue trivial
  | .connective _ | .comparison _ _ _ | .reference _ | .fallback _ _ => .isFalse id

instance (isMacro : String → Bool) : DecidablePred (Native isMacro)
  | .comparison _ _ _ | .fallback _ _ => inferInstanceAs (Decidable (_ ∧ _))
  | .reference target => inferInstanceAs (Decidable (Lexeme.IsName target))
  | .bare name => inferInstanceAs (Decidable (Nominal isMacro (.bare name)))
  | .macroName name => inferInstanceAs (Decidable (Nominal isMacro (.macroName name)))
  | .constant value => inferInstanceAs (Decidable (Nominal isMacro (.constant value)))
  | .connective kind => inferInstanceAs (Decidable (Nominal isMacro (.connective kind)))

variable {isMacro : String → Bool} {token : Token}

/-- Plain tokens can be read from text. -/
theorem Plain.native (plain : token.Plain isMacro) : token.Native isMacro := by
  cases token with
  | bare | comparison | constant => exact plain
  | connective | macroName | reference | fallback => exact plain.elim

/-- The text of a nominal token is a name that is read as the token. -/
theorem Nominal.named (nominal : token.Nominal isMacro) :
    Lexeme.IsName token.text ∧ NamedBy isMacro token.text token := by
  cases token with
  | bare name => exact ⟨nominal.1, .bare nominal.2.1 nominal.2.2⟩
  | macroName name => exact ⟨nominal.1, .macroName nominal.2.1 nominal.2.2⟩
  | constant value =>
      cases value with
      | true => exact ⟨by decide, .always (.inl rfl)⟩
      | false => exact ⟨by decide, .never (.inl rfl)⟩
  | connective | comparison | reference | fallback => exact nominal.elim

/-- The text of an atom that text can be read as spells the atom. -/
theorem Native.spelled (native : token.Native isMacro) :
    Spelled isMacro token.text.toList token := by
  have ofName (nominal : token.Nominal isMacro) : Spelled isMacro token.text.toList token :=
    .name nominal.named.1 nominal.named.2
  cases token with
  | bare | macroName | constant | connective => exact ofName native
  | comparison kind left right =>
      have spelled : Spelled isMacro _ (.comparison kind left right) :=
        .comparison kind native.1 native.2 allBlank_nil allBlank_nil
      simpa [text, String.toList_append] using spelled
  | reference target =>
      have spelled : Spelled isMacro _ (.reference target) := .reference native
      simpa [text, String.toList_append] using spelled
  | fallback first second =>
      have spelled := Spelled.fallback native.1.named.1 native.2.named.1 native.1.named.2
        native.2.named.2 allBlank_nil allBlank_nil
      simpa [text, String.toList_append] using spelled

/-- Plain tokens can be read. -/
theorem Plain.readable (plain : token.Plain isMacro) : token.Readable :=
  plain.native.spelled.readable

end Token

namespace Tree

variable {isMacro : String → Bool} {tree : Tree Token}

/-- A tree of tokens that text can be read as has no connectives for atoms. -/
theorem proper_of_native (native : tree.All (Token.Native isMacro)) : tree.Proper :=
  native.mono fun _ ofToken => ofToken.spelled.readable.isConnective

/-- An operand is written in parentheses or not, so that it binds as tight as is asked for. -/
theorem written_within (written : tree.Written isMacro tree.strength tree.phrase.text.toList)
    {least outer : Nat} (atMost : least ≤ 2)
    (fits : outer ≤ tree.strength → least ≤ tree.strength) :
    tree.Written isMacro least (tree.phrase.within outer).toList := by
  rw [Clause.Phrase.within, strength_phrase]
  split
  · have grouped := Written.group (written.weaken (Nat.zero_le tree.strength))
    have chars : ("(" ++ tree.phrase.text ++ ")").toList =
        '(' :: (tree.phrase.text.toList ++ [')']) := by
      simp [String.toList_append]
    rw [chars]
    exact grouped.weaken atMost
  · next tight => exact written.weaken (fits (Nat.not_lt.1 tight))

/-- A tree that leans to the left is what its text writes. -/
theorem written_phrase (native : tree.All (Token.Native isMacro)) (leaning : tree.Leaning) :
    tree.Written isMacro tree.strength tree.phrase.text.toList := by
  induction tree with
  | atom token => exact .atom (Token.Native.spelled native)
  | join kind left right ihLeft ihRight =>
      obtain ⟨leaningLeft, leaningRight, apart⟩ := leaning
      have first : left.Written isMacro kind.strength (left.phrase.within kind.strength).toList :=
        written_within (ihLeft native.1 leaningLeft) (Nat.le_of_lt kind.strength_lt_two) id
      have second : right.Written isMacro (kind.strength + 1)
          (right.phrase.within kind.strength).toList :=
        written_within (ihRight native.2 leaningRight) kind.strength_lt_two
          fun tight => Nat.lt_of_le_of_ne tight (Ne.symm apart)
      have chars : (join kind left right).phrase.text.toList =
          (left.phrase.within kind.strength).toList ++ [' '] ++
            (kind.text.toList ++ ([' '] ++ (right.phrase.within kind.strength).toList)) := by
        simp [phrase, Clause.Phrase.join, String.toList_append]
      rw [chars]
      exact .join kind (first.blanksAfter allBlank_space) (second.blanksBefore allBlank_space)

end Tree

namespace Clause

variable {isMacro : String → Bool}

/-- The text of a clause is read as its tree, grouped from the left. -/
theorem ofText_text {tree : Tree Token} (native : tree.All (Token.Native isMacro)) :
    ofText isMacro (text ⟨tree.tokens⟩) = .ok ⟨tree.leftward.tokens⟩ := by
  have written := Tree.written_phrase (Tree.all_leftward.2 native) tree.leaning_leftward
  rw [Tree.text_tokens (Tree.proper_of_native native), ← Tree.phrase_leftward]
  exact ofText_of_written (written.weaken (Nat.zero_le _))

end Clause

namespace MacroTable

/-- The text of one atom is parsed as the atom. -/
theorem parse_atom (table : MacroTable) (name : String) {token : Token}
    (native : token.Native table.contains) :
    table.parse name token.text = .ok (.atom token) := by
  have atoms : (Tree.atom token).All (Token.Native table.contains) := native
  have read := Clause.ofText_text atoms
  rw [Tree.text_tokens (Tree.proper_of_native atoms)] at read
  exact Except.mapError_eq_ok_iff.2 read

/-- The text of a clause is parsed as the clause with every run of one connective grouped from the
left: the one tree that regrouping ends in, with the operands, the values and the text of the
clause, which is the clause itself exactly when no run was grouped from the right. -/
theorem parse_text (table : MacroTable) (name : String) {tokens : List Token} {clause : Clause}
    (formed : Clause.ofTokens tokens = .ok clause)
    (native : ∀ token ∈ tokens, token.isConnective = false → token.Native table.contains) :
    ∃ tree again : Tree Token, tree.Proper ∧ tree.tokens = clause.tokens ∧
      table.parse name clause.text = .ok ⟨again.tokens⟩ ∧
      (∀ other : Tree Token, tree.Regroups other ∧ other.Leaning ↔ other = again) ∧
      Clause.operands again.tokens = Clause.operands clause.tokens ∧
      (∀ ofAtom : Token → Int, again.value ofAtom = tree.value ofAtom) ∧
      Clause.text ⟨again.tokens⟩ = clause.text ∧
      (⟨again.tokens⟩ = clause ↔ tree.Leaning) := by
  obtain ⟨_, checked, rfl⟩ := Except.map_eq_ok_iff.1 formed
  obtain ⟨tree, proper, rfl⟩ := Clause.exists_tree_of_check checked
  have atoms : tree.All (Token.Native table.contains) :=
    Tree.all_of_forall_mem_tokens proper native
  have properAgain : tree.leftward.Proper := Tree.all_leftward.2 proper
  refine ⟨tree, tree.leftward, proper, rfl, ?_, fun other => ⟨?_, ?_⟩, tree.operands_leftward,
    fun ofAtom => Tree.value_leftward ofAtom tree, ?_, ?_⟩
  · exact Except.mapError_eq_ok_iff.2 (Clause.ofText_text atoms)
  · exact fun ⟨regroups, leaning⟩ => regroups.eq_leftward leaning
  · rintro rfl
    exact ⟨tree.regroups_leftward, tree.leaning_leftward⟩
  · rw [Tree.text_tokens properAgain, Tree.text_tokens proper, Tree.phrase_leftward]
  · rw [Clause.mk.injEq, ← Tree.leftward_eq_self_iff]
    exact ⟨Tree.tokens_injective properAgain proper, congrArg Tree.tokens⟩

/-- The tokens of `A + (B + M) | (A?M | *G)`. -/
def runs : List Token :=
  [.bare "A", .bare "B", .macroName "M", .connective .and, .connective .and,
    .fallback (.bare "A") (.macroName "M"), .reference "G", .connective .or, .connective .or]

/-- The runs come back with other tokens and the same operands. -/
theorem parse_text_runs : ∃ again : Clause,
    shorthand.parse "I" (Clause.text ⟨runs⟩) = .ok again ∧ again ≠ ⟨runs⟩ ∧
      Clause.operands again.tokens = Clause.operands runs := by
  have formed : Clause.ofTokens runs = .ok ⟨runs⟩ := rfl
  obtain ⟨tree, again, proper, same, parsed, _, operands, _, _, unchanged⟩ :=
    parse_text shorthand "I" formed (by decide +kernel)
  refine ⟨⟨again.tokens⟩, parsed, fun identical => ?_, operands⟩
  have stands : tree = .join .or (.join .and (.atom (.bare "A"))
      (.join .and (.atom (.bare "B")) (.atom (.macroName "M"))))
      (.join .or (.atom (.fallback (.bare "A") (.macroName "M"))) (.atom (.reference "G"))) :=
    Tree.tokens_injective proper (by simp [Tree.Proper, Tree.All, Token.isConnective]) same
  have leaning := unchanged.1 identical
  rw [stands] at leaning
  exact leaning.2.2 rfl

end MacroTable

end Randomizer
