import Randomizer.Proofs.Logic.Grammar

namespace Randomizer.Lexeme

/-- Text that does not prolong a name in front of it. -/
def EndsName (rest : List Char) : Prop :=
  ∀ char tail, rest = char :: tail → isNameChar char = false

/-- Text after an atom that neither prolongs its name nor joins another one to it. -/
def Bounds (rest : List Char) : Prop :=
  EndsName rest ∧ ∀ symbol tail, afterBlanks rest = symbol :: tail → Joint.ofChar? symbol = none

section Characters

variable {char : Char}

/-- No name character is a blank. -/
theorem isBlank_of_isNameChar (inName : isNameChar char) : isBlank char = false := by
  rw [isNameChar, Bool.and_eq_true, Bool.not_eq_true'] at inName
  exact inName.1

/-- No blank is a name character. -/
theorem isNameChar_of_isBlank (blank : isBlank char) : isNameChar char = false := by
  rw [isNameChar, blank]
  rfl

/-- No name character is a lexeme of its own. -/
theorem ofChar?_of_isNameChar (inName : isNameChar char) : ofChar? char = none := by
  rw [isNameChar, Bool.and_eq_true, Bool.not_eq_true'] at inName
  have notReserved := inName.2
  unfold ofChar?
  split
  · cases notReserved
  · cases notReserved
  · cases notReserved
  · cases notReserved
  · rfl

/-- The star is no name character. -/
theorem ne_star_of_isNameChar (inName : isNameChar char) : char ≠ '*' := by
  rintro rfl
  cases inName

/-- The mark of a comparison or a fallback is neither a name character nor a blank. -/
theorem Joint.not_inName {joint : Joint} (isJoint : Joint.ofChar? char = some joint) :
    isNameChar char = false ∧ isBlank char = false := by
  unfold Joint.ofChar? at isJoint
  split at isJoint
  · next question =>
    rw [question]
    decide
  · obtain ⟨kind, isKind, _⟩ := Option.map_eq_some_iff.1 isJoint
    unfold Comparison.ofChar? at isKind
    split at isKind
    · decide
    · decide
    · decide
    · cases isKind

/-- The symbol of a comparison joins two names. -/
theorem Joint.ofChar?_symbol (kind : Comparison) :
    Joint.ofChar? kind.symbol = some (.comparison kind) := by
  cases kind <;> decide

end Characters

section Bounds

variable {rest : List Char}

theorem endsName_nil : EndsName [] := nofun

theorem endsName_cons {char : Char} (notInName : isNameChar char = false) (tail : List Char) :
    EndsName (char :: tail) := by
  rintro other more ⟨⟩
  exact notInName

/-- Blanks and then the end of a name end a name. -/
theorem endsName_blanks {blanks : List Char} (blank : AllBlank blanks) (ends : EndsName rest) :
    EndsName (blanks ++ rest) := by
  cases blanks with
  | nil => exact ends
  | cons char others => exact endsName_cons (isNameChar_of_isBlank (blank char (by simp))) _

/-- Blanks ahead are passed over. -/
theorem afterBlanks_append {blanks : List Char} (blank : AllBlank blanks) (rest : List Char) :
    afterBlanks (blanks ++ rest) = afterBlanks rest :=
  List.dropWhile_append_of_pos blank

/-- Without blanks ahead nothing is passed over. -/
theorem afterBlanks_cons {char : Char} (notBlank : isBlank char = false) (tail : List Char) :
    afterBlanks (char :: tail) = char :: tail :=
  List.dropWhile_cons_of_neg (by simp [notBlank])

theorem bounds_nil : Bounds [] := ⟨endsName_nil, nofun⟩

theorem bounds_close (rest : List Char) : Bounds (')' :: rest) := by
  refine ⟨endsName_cons (by decide) rest, ?_⟩
  rintro symbol tail ⟨⟩
  decide

/-- A connective bounds what is before it. -/
theorem bounds_connective (kind : Connective) (rest : List Char) :
    Bounds (kind.text.toList ++ rest) := by
  cases kind with
  | or =>
      refine ⟨endsName_cons (by decide) rest, ?_⟩
      rintro symbol tail ⟨⟩
      decide
  | and =>
      refine ⟨endsName_cons (by decide) rest, ?_⟩
      rintro symbol tail ⟨⟩
      decide

/-- Blanks and then a bound are a bound. -/
theorem bounds_blanks {blanks : List Char} (blank : AllBlank blanks) (bounds : Bounds rest) :
    Bounds (blanks ++ rest) := by
  refine ⟨endsName_blanks blank bounds.1, ?_⟩
  rw [afterBlanks_append blank]
  exact bounds.2

/-- No name characters follow where a name ends. -/
theorem takeWhile_of_endsName (ends : EndsName rest) : rest.takeWhile isNameChar = [] := by
  cases rest with
  | nil => rfl
  | cons char tail => rw [List.takeWhile_cons_of_neg (by simp [ends char tail rfl])]

/-- Nothing is passed over where a name ends. -/
theorem dropWhile_of_endsName (ends : EndsName rest) : rest.dropWhile isNameChar = rest := by
  cases rest with
  | nil => rfl
  | cons char tail => rw [List.dropWhile_cons_of_neg (by simp [ends char tail rfl])]

end Bounds

section Names

variable {name : String} (isName : IsName name) {rest : List Char}
include isName

/-- A name ends where the text after it does not prolong it. -/
theorem nameAhead_append (ends : EndsName rest) : nameAhead (name.toList ++ rest) = name := by
  rw [nameAhead, List.takeWhile_append_of_pos isName.2, takeWhile_of_endsName ends,
    List.append_nil, String.ofList_toList]

/-- After a name comes the rest. -/
theorem afterName_append (ends : EndsName rest) : afterName (name.toList ++ rest) = rest := by
  rw [afterName, List.dropWhile_append_of_pos isName.2, dropWhile_of_endsName ends]

/-- A name has a first character. -/
theorem exists_head_of_isName : ∃ char tail, name.toList = char :: tail ∧ isNameChar char := by
  cases written : name.toList with
  | nil => exact absurd (String.toList_eq_nil_iff.1 written) isName.1
  | cons char tail => exact ⟨char, tail, rfl, isName.2 char (by simp [written])⟩

section Head

variable {char : Char} {tail : List Char} (written : name.toList = char :: tail)
  (ends : EndsName rest)
include written ends

/-- The name ahead is read whole from its first character. -/
theorem nameAhead_head : nameAhead (char :: (tail ++ rest)) = name := by
  rw [← List.cons_append, ← written, nameAhead_append isName ends]

/-- The rest of a name is passed over with the name. -/
theorem afterName_tail : afterName (tail ++ rest) = rest := by
  have whole := afterName_append isName ends
  rwa [written, List.cons_append, afterName,
    List.dropWhile_cons_of_pos (isName.2 char (by simp [written]))] at whole

end Head

/-- A name does not begin with blanks. -/
theorem afterBlanks_name (rest : List Char) :
    afterBlanks (name.toList ++ rest) = name.toList ++ rest := by
  obtain ⟨char, tail, written, inName⟩ := exists_head_of_isName isName
  rw [written]
  exact afterBlanks_cons (isBlank_of_isNameChar inName) _

end Names

section Reading

variable {isMacro : String → Bool} {size : Nat}

/-- A name that nothing is joined to is read as what it stands for. -/
theorem readAtom_name {name : String} (isName : IsName name) {char : Char}
    {tail rest : List Char} (written : name.toList = char :: tail) (bounds : Bounds rest) :
    readAtom isMacro size char (tail ++ rest) = .ok (.ofName isMacro name, rest) := by
  have inName : isNameChar char := isName.2 char (by simp [written])
  rw [readAtom, if_neg (ne_star_of_isNameChar inName), if_pos inName]
  simp only [nameAhead_head isName written bounds.1, afterName_tail isName written bounds.1]
  split
  · rfl
  · next symbol more found => rw [bounds.2 symbol more found]

/-- Two names with a joint between them are read as one atom. -/
theorem readAtom_joint {left right : String} (isLeft : IsName left) (isRight : IsName right)
    {joint : Joint} {symbol : Char} (isJoint : Joint.ofChar? symbol = some joint)
    {before after : List Char} (blankBefore : AllBlank before) (blankAfter : AllBlank after)
    {char : Char} {tail rest : List Char} (written : left.toList = char :: tail)
    (ends : EndsName rest) :
    readAtom isMacro size char
        (tail ++ (before ++ symbol :: (after ++ (right.toList ++ rest)))) =
      .ok (joint.token isMacro left right, rest) := by
  have inName : isNameChar char := isLeft.2 char (by simp [written])
  obtain ⟨notInName, notBlank⟩ := Joint.not_inName isJoint
  have endsLeft := endsName_blanks blankBefore
    (endsName_cons notInName (after ++ (right.toList ++ rest)))
  rw [readAtom, if_neg (ne_star_of_isNameChar inName), if_pos inName]
  simp only [nameAhead_head isLeft written endsLeft, afterName_tail isLeft written endsLeft,
    afterBlanks_append blankBefore, afterBlanks_cons notBlank, isJoint,
    afterBlanks_append blankAfter, afterBlanks_name isRight, nameAhead_append isRight ends,
    isRight.1, if_false, afterName_append isRight ends]

/-- A star and a name are read as a reference. -/
theorem readAtom_reference {target : String} (isName : IsName target) {rest : List Char}
    (ends : EndsName rest) :
    readAtom isMacro size '*' (target.toList ++ rest) = .ok (.reference target, rest) := by
  rw [readAtom, if_pos rfl, nameAhead_append isName ends, if_neg isName.1,
    afterName_append isName ends]

/-- An atom that is read ahead is the next lexeme. -/
theorem scan_of_readAtom {char : Char} {rest after : List Char} {token : Token}
    (notBlank : isBlank char = false) (notSymbol : ofChar? char = none)
    (read : readAtom isMacro size char rest = .ok (token, after)) :
    scan isMacro size (char :: rest) = (scan isMacro size after).map (.atom token :: ·) := by
  rw [scan.eq_def]
  simp only [notBlank, notSymbol, Bool.false_eq_true, if_false]
  split
  · next fault failed =>
    rw [read] at failed
    cases failed
  · next other otherAfter readOther =>
    rw [read] at readOther
    cases readOther
    rfl

/-- The characters of an atom are scanned as the atom. -/
theorem scan_spelled {chars : List Char} {token : Token}
    (spelled : Token.Spelled isMacro chars token) {rest : List Char} (bounds : Bounds rest) :
    scan isMacro size (chars ++ rest) = (scan isMacro size rest).map (.atom token :: ·) := by
  have named {name : String} (isName : IsName name) {following : List Char}
      (read : ∀ char tail, name.toList = char :: tail →
        readAtom isMacro size char (tail ++ following) = .ok (token, rest)) :
      scan isMacro size (name.toList ++ following) =
        (scan isMacro size rest).map (.atom token :: ·) := by
    obtain ⟨char, tail, written, inName⟩ := exists_head_of_isName isName
    rw [written, List.cons_append]
    exact scan_of_readAtom (isBlank_of_isNameChar inName) (ofChar?_of_isNameChar inName)
      (read char tail written)
  cases spelled with
  | name isName namedBy =>
      rw [namedBy.eq_ofName] at named ⊢
      exact named isName fun char tail written => readAtom_name isName written bounds
  | comparison kind isLeft isRight blankBefore blankAfter =>
      simp only [List.append_assoc, List.cons_append]
      exact named isLeft fun char tail written => readAtom_joint isLeft isRight
        (Joint.ofChar?_symbol kind) blankBefore blankAfter written bounds.1
  | fallback isLeft isRight first second blankBefore blankAfter =>
      simp only [List.append_assoc, List.cons_append]
      rw [first.eq_ofName, second.eq_ofName] at named ⊢
      have isJoint : Joint.ofChar? '?' = some .fallback := rfl
      exact named isLeft fun char tail written => readAtom_joint isLeft isRight isJoint
        blankBefore blankAfter written bounds.1
  | reference isName =>
      exact scan_of_readAtom (by decide) (by decide) (readAtom_reference isName bounds.1)

/-- An opening parenthesis is the next lexeme. -/
theorem scan_open (rest : List Char) :
    scan isMacro size ('(' :: rest) = (scan isMacro size rest).map (.openGroup :: ·) := by
  rw [scan.eq_def]
  rfl

/-- A closing parenthesis is the next lexeme. -/
theorem scan_close (rest : List Char) :
    scan isMacro size (')' :: rest) = (scan isMacro size rest).map (.closeGroup :: ·) := by
  rw [scan.eq_def]
  rfl

/-- Blanks make no lexeme. -/
theorem scan_blanks {blanks : List Char} (blank : AllBlank blanks) (rest : List Char) :
    scan isMacro size (blanks ++ rest) = scan isMacro size rest := by
  induction blanks with
  | nil => rfl
  | cons char others ih =>
      rw [List.cons_append, scan.eq_def]
      simp only [blank char (by simp), if_true]
      exact ih fun other member => blank other (by simp [member])

/-- A connective is the next lexeme. -/
theorem scan_connective (kind : Connective) (rest : List Char) :
    scan isMacro size (kind.text.toList ++ rest) =
      (scan isMacro size rest).map (.connective kind :: ·) := by
  cases kind with
  | or =>
      change scan isMacro size ('|' :: rest) = _
      rw [scan.eq_def]
      rfl
  | and =>
      change scan isMacro size ('+' :: rest) = _
      rw [scan.eq_def]
      rfl

end Reading

section Spelling

variable {isMacro : String → Bool} {size : Nat}

/-- The characters of a lexeme. -/
def SpelledBy (isMacro : String → Bool) (chars : List Char) : Lexeme → Prop
  | openGroup => chars = ['(']
  | closeGroup => chars = [')']
  | connective kind => chars = kind.text.toList
  | atom token => Token.Spelled isMacro chars token

/-- Text that is made of lexemes in order, with blanks around them. -/
inductive MadeOf (isMacro : String → Bool) : List Char → List Lexeme → Prop where
  | blanks {chars : List Char} : AllBlank chars → MadeOf isMacro chars []
  | lexeme {before chars rest : List Char} {lexeme : Lexeme} {lexemes : List Lexeme} :
      AllBlank before → lexeme.SpelledBy isMacro chars → MadeOf isMacro rest lexemes →
      MadeOf isMacro (before ++ (chars ++ rest)) (lexeme :: lexemes)

/-- Lexemes are made of the same text with a blank before it. -/
theorem MadeOf.blankFirst {chars : List Char} {lexemes : List Lexeme}
    (made : MadeOf isMacro chars lexemes) {char : Char} (blank : isBlank char) :
    MadeOf isMacro (char :: chars) lexemes := by
  cases made with
  | blanks others => exact .blanks (allBlank_cons blank others)
  | lexeme others spelled rest => exact .lexeme (allBlank_cons blank others) spelled rest

/-- Lexemes are made of the spelling of the first and what the others are made of. -/
theorem SpelledBy.lexemeFirst {chars rest : List Char} {lexeme : Lexeme} {lexemes : List Lexeme}
    (spelled : lexeme.SpelledBy isMacro chars) (made : MadeOf isMacro rest lexemes) :
    MadeOf isMacro (chars ++ rest) (lexeme :: lexemes) :=
  .lexeme allBlank_nil spelled made

/-- The name ahead and what is after it make the text. -/
theorem toList_nameAhead_append (chars : List Char) :
    (nameAhead chars).toList ++ afterName chars = chars := by
  rw [nameAhead, String.toList_ofList]
  exact List.takeWhile_append_dropWhile

/-- Every text is some blanks and what is after them. -/
theorem exists_blanks_append (chars : List Char) :
    ∃ blanks, AllBlank blanks ∧ chars = blanks ++ afterBlanks chars :=
  ⟨chars.takeWhile isBlank, List.all_eq_true.1 List.all_takeWhile,
    List.takeWhile_append_dropWhile.symm⟩

/-- An atom that is read was spelled by the characters that are taken. -/
theorem exists_spelled_of_readAtom {char : Char} {rest after : List Char} {token : Token}
    (read : readAtom isMacro size char rest = .ok (token, after)) :
    ∃ chars, char :: rest = chars ++ after ∧ Token.Spelled isMacro chars token := by
  unfold readAtom at read
  split at read
  · next star =>
    split at read
    · cases read
    · next named =>
      cases read
      refine ⟨'*' :: (nameAhead rest).toList, ?_, .reference (isName_nameAhead named)⟩
      rw [List.cons_append, toList_nameAhead_append, star]
  · split at read
    · next inName =>
      have isLeft := isName_nameAhead (nameAhead_cons_ne_empty rest inName)
      have taken : char :: rest = (nameAhead (char :: rest)).toList ++ afterName rest := by
        have whole := toList_nameAhead_append (char :: rest)
        rw [afterName, List.dropWhile_cons_of_pos inName] at whole
        exact whole.symm
      have bare : ∃ chars, char :: rest = chars ++ afterName rest ∧
          Token.Spelled isMacro chars (.ofName isMacro (nameAhead (char :: rest))) :=
        ⟨_, taken, .name isLeft (Token.namedBy_ofName isMacro _)⟩
      dsimp only at read
      split at read
      · cases read
        exact bare
      · next symbol tail found =>
        split at read
        · cases read
          exact bare
        · next joint isJoint =>
          split at read
          · cases read
          · next named =>
            cases read
            obtain ⟨before, blankBefore, ofBefore⟩ := exists_blanks_append (afterName rest)
            obtain ⟨between, blankBetween, ofBetween⟩ := exists_blanks_append tail
            refine ⟨_, ?_,
              .joined isJoint isLeft (isName_nameAhead named) blankBefore blankBetween⟩
            rw [found] at ofBefore
            simp only [List.append_assoc, List.cons_append, toList_nameAhead_append]
            rw [← ofBetween, ← ofBefore]
            exact taken
    · cases read

/-- A lexeme that is one character is spelled by it. -/
theorem spelledBy_of_ofChar? {char : Char} {lexeme : Lexeme} (known : ofChar? char = some lexeme) :
    lexeme.SpelledBy isMacro [char] := by
  unfold ofChar? at known
  split at known <;> cases known <;> rfl

/-- Text that can be scanned is made of the lexemes found. -/
theorem madeOf_of_scan {chars : List Char} {lexemes : List Lexeme}
    (scanned : scan isMacro size chars = .ok lexemes) : MadeOf isMacro chars lexemes := by
  fun_induction scan isMacro size chars generalizing lexemes with
  | case1 =>
      cases scanned
      exact .blanks allBlank_nil
  | case2 char rest blank ih => exact (ih scanned).blankFirst blank
  | case3 char rest notBlank lexeme known ih =>
      obtain ⟨later, scannedLater, rfl⟩ := Except.map_eq_ok_iff.1 scanned
      exact (spelledBy_of_ofChar? known).lexemeFirst (ih scannedLater)
  | case4 => cases scanned
  | case5 char rest notBlank unknown token after read shorter ih =>
      obtain ⟨later, scannedLater, rfl⟩ := Except.map_eq_ok_iff.1 scanned
      obtain ⟨own, same, spelled⟩ := exists_spelled_of_readAtom read
      have ofAtom : SpelledBy isMacro own (.atom token) := spelled
      rw [same]
      exact ofAtom.lexemeFirst (ih scannedLater)

end Spelling

end Randomizer.Lexeme
