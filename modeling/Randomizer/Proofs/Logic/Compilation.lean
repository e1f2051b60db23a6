import Randomizer.Proofs.Logic.Expansion
import Randomizer.Proofs.Logic.Ingestion
import Randomizer.Proofs.Logic.Steps

/-!
Compiling keeps to the meaning of logic. Whatever is compiled first, each variable stands for the
name that it was registered under and each definition for the clause of its name, and the symbols
that come out are those that the tokens are replaced by.
-/

namespace Randomizer

/-- The scope sees the names of a wider one, and some of its clauses. -/
structure Scope.PartOf (scope ambient : Scope) : Prop where
  terms : scope.terms = ambient.terms
  macros : scope.macros = ambient.macros
  resolver : scope.resolver = ambient.resolver
  sources : ∀ name clause, scope.sources.get? name = some clause →
    ambient.sources.get? name = some clause

theorem Scope.PartOf.refl (scope : Scope) : scope.PartOf scope :=
  ⟨rfl, rfl, rfl, fun _ _ => id⟩

theorem Scope.PartOf.trans {scope middle ambient : Scope} (part : scope.PartOf middle)
    (partOther : middle.PartOf ambient) : scope.PartOf ambient where
  terms := part.terms.trans partOther.terms
  macros := part.macros.trans partOther.macros
  resolver := part.resolver.trans partOther.resolver
  sources := fun name clause found => partOther.sources name clause (part.sources name clause found)

/-- What a name resolves to does not depend on the clauses at hand. -/
theorem Scope.PartOf.resolves {scope ambient : Scope} (part : scope.PartOf ambient)
    {name : String} : scope.Resolves name ↔ ambient.Resolves name := by
  rw [Resolves, Resolves, part.terms, part.resolver]

/-- Every clause that is still to be put in place was read from text. -/
structure Scope.Readable (scope : Scope) : Prop where
  macros : scope.macros.Readable
  sources : scope.sources.Readable

/-- Every clause that is still to be put in place writes a tree. -/
structure Scope.Formed (scope : Scope) : Prop where
  macros : ∀ name clause, scope.macros.get? name = some clause → clause.Formed
  sources : ∀ name clause, scope.sources.get? name = some clause → clause.Formed

/-- Clauses that are formed in the whole are formed in a part of it. -/
theorem Scope.PartOf.formed {scope ambient : Scope} (part : scope.PartOf ambient)
    (formed : ambient.Formed) : scope.Formed where
  macros := fun name clause found => formed.macros name clause (part.macros ▸ found)
  sources := fun name clause found => formed.sources name clause (part.sources name clause found)

/-- Clauses that can be read are formed. -/
theorem Scope.Readable.formed {scope : Scope} (readable : scope.Readable) : scope.Formed where
  macros := fun name clause found => (readable.macros name clause found).formed
  sources := fun name clause found => (readable.sources name clause found).formed

namespace Compiled

/-- What has been compiled stands for what the scope says, and with the clauses at hand it covers
all that there is. -/
structure Sound (scope ambient : Scope) (compiled : Compiled) : Prop where
  registered : ∀ registration ∈ compiled.vars.registrations,
    ambient.terms.idOf? registration.spelling = none ∧
      ambient.resolver ambient.terms registration.spelling = some registration.quantity
  definitions : ∀ name definition, compiled.definitions.get? name = some definition →
    definition.name = name ∧ ∃ clause, ambient.sources.get? name = some clause ∧
      ambient.ClauseExpands compiled.vars clause definition.program
  complete : ∀ name ∈ ambient.sources.keys,
    compiled.definitions.contains name ∨ scope.sources.contains name

/-- The later state keeps every slot and every definition's name. -/
structure Precedes (compiled later : Compiled) : Prop where
  slots : compiled.vars.Precedes later.vars
  definitions : ∀ name, compiled.definitions.contains name → later.definitions.contains name

theorem Precedes.refl (compiled : Compiled) : compiled.Precedes compiled :=
  ⟨.refl _, fun _ => id⟩

theorem Precedes.trans {first second third : Compiled} (before : first.Precedes second)
    (after : second.Precedes third) : first.Precedes third :=
  ⟨before.slots.trans after.slots,
    fun name known => after.definitions name (before.definitions name known)⟩

variable {scope ambient : Scope} {compiled : Compiled}

/-- A sound state stays sound with a variable that the resolver finds. -/
theorem Sound.register (sound : compiled.Sound scope ambient) {name : String}
    {quantity : Variable} (notTerm : ambient.terms.idOf? name = none)
    (found : ambient.resolver ambient.terms name = some quantity) :
    Sound scope ambient { compiled with vars := compiled.vars.register name quantity } where
  registered := by
    intro registration member
    rcases List.mem_append.1 member with known | added
    · exact sound.registered registration known
    · obtain rfl := List.mem_singleton.1 added
      exact ⟨notTerm, found⟩
  definitions := by
    intro other definition defined
    obtain ⟨named, clause, source, expands⟩ := sound.definitions other definition defined
    exact ⟨named, clause, source, expands.mono (VariableTable.precedes_register _ _ _)⟩
  complete := sound.complete

/-- A sound state stays sound with a definition of what a clause at hand is replaced by. -/
theorem Sound.define (sound : compiled.Sound scope ambient) {name : String} {clause : Clause}
    {program : Program} (source : ambient.sources.get? name = some clause)
    (expands : ambient.ClauseExpands compiled.vars clause program) :
    Sound scope ambient
      { compiled with definitions := compiled.definitions.insert name ⟨name, program⟩ } where
  registered := sound.registered
  definitions := by
    intro other definition defined
    rw [NameMap.get?_insert] at defined
    split at defined
    · next same =>
      cases defined
      exact ⟨same.symm, clause, same ▸ source, expands⟩
    · exact sound.definitions other definition defined
  complete := by
    intro other known
    rw [NameMap.contains_insert]
    rcases sound.complete other known with defined | atHand
    · exact .inl (by simp [defined])
    · exact .inr atHand

/-- A definition that is added takes no variable away. -/
theorem precedes_define (compiled : Compiled) (name : String) (definition : Definition) :
    compiled.Precedes
      { compiled with definitions := compiled.definitions.insert name definition } :=
  ⟨.refl _, fun other known => by simp [NameMap.contains_insert, known]⟩

end Compiled

namespace Scope

variable {scope ambient : Scope} {compiled next : Compiled}

/-- A variable that is registered is one that the scope finds, so it adds nothing to what is
known. -/
theorem knows_iff (part : scope.PartOf ambient) (sound : compiled.Sound scope ambient)
    {name : String} : scope.knows compiled.vars name ↔ ambient.Resolves name := by
  have cached : (compiled.vars.codeOf? name).isSome → ambient.Resolves name := by
    intro known
    obtain ⟨code, known⟩ := Option.isSome_iff_exists.1 known
    obtain ⟨slot, found, -⟩ := Option.map_eq_some_iff.1 known
    obtain ⟨quantity, registered⟩ := VariableTable.registered_of_slotOf? found
    exact .inr ⟨quantity, (sound.registered _ (List.mem_of_getElem? registered)).2⟩
  have matched : (scope.terms.contains name ∨ (scope.resolver scope.terms name).isSome) ↔
      ambient.Resolves name := by
    rw [part.terms, part.resolver, TermTable.contains, List.contains_iff_mem,
      Option.isSome_iff_exists, Resolves]
  rw [knows, Bool.or_eq_true, Bool.or_eq_true, or_right_comm, matched]
  exact or_iff_left_of_imp cached

/-- The test for a fallback looks at what the scope offers, not at what is compiled yet. -/
theorem resolves_iff (part : scope.PartOf ambient) (sound : compiled.Sound scope ambient)
    {token : Token} : scope.resolves compiled token ↔ ambient.AtomResolves token := by
  induction token with
  | bare name => exact knows_iff part sound
  | comparison kind left right =>
      rw [resolves, Bool.and_eq_true, knows_iff part sound, knows_iff part sound, AtomResolves]
  | constant value | connective kind => exact iff_of_true rfl trivial
  | macroName name =>
      rw [resolves, part.macros, NameMap.contains_iff, AtomResolves, NameMap.mem_keys_iff]
  | reference target =>
      rw [resolves, Bool.or_eq_true, AtomResolves]
      constructor
      · rintro (defined | atHand)
        · obtain ⟨definition, found⟩ := NameMap.contains_iff.1 defined
          obtain ⟨_, clause, source, _⟩ := sound.definitions target definition found
          exact NameMap.mem_keys_iff.2 ⟨clause, source⟩
        · obtain ⟨clause, found⟩ := NameMap.contains_iff.1 atHand
          exact NameMap.mem_keys_iff.2 ⟨clause, part.sources target clause found⟩
      · exact sound.complete target
  | fallback first second ihFirst ihSecond =>
      rw [resolves, Bool.or_eq_true, ihFirst, ihSecond, AtomResolves]

/-- A name compiles to its term, or to the slot that it is registered in by then. -/
theorem compileName_ok_or {definition name : String} {code : Int}
    (ran : scope.compileName definition name compiled = .ok code next) :
    (∃ id, scope.terms.idOf? name = some id ∧ code = (Operand.term id).symbol.code ∧
      next = compiled) ∨
    scope.terms.idOf? name = none ∧ ∃ index quantity,
      next.vars.registrations[index]? = some ⟨name, quantity⟩ ∧
      code = (Operand.slot index).symbol.code ∧
      (next = compiled ∨ scope.resolver scope.terms name = some quantity ∧
        next = { compiled with vars := compiled.vars.register name quantity }) := by
  cases found : scope.terms.idOf? name with
  | some id =>
      simp only [compileName, found] at ran
      obtain ⟨rfl, rfl⟩ := EStateM.pure_eq_ok_iff.1 ran
      exact .inl ⟨id, rfl, rfl, rfl⟩
  | none =>
      simp only [compileName, found, EStateM.get_bind_apply] at ran
      cases known : compiled.vars.codeOf? name with
      | some known =>
          simp only [known] at ran
          obtain ⟨rfl, rfl⟩ := EStateM.pure_eq_ok_iff.1 ran
          obtain ⟨index, slot, rfl⟩ := Option.map_eq_some_iff.1 known
          obtain ⟨quantity, registered⟩ := VariableTable.registered_of_slotOf? slot
          exact .inr ⟨rfl, index, quantity, registered, rfl, .inl rfl⟩
      | none =>
          cases matched : scope.resolver scope.terms name with
          | none =>
              simp only [known, matched] at ran
              cases ran
          | some quantity =>
              simp only [known, matched] at ran
              cases ran
              exact .inr ⟨rfl, compiled.vars.size, quantity, List.getElem?_concat_length, rfl,
                .inr ⟨rfl, rfl⟩⟩

/-- A name compiles to the operand that it is replaced by. -/
theorem compileName_ok (part : scope.PartOf ambient) (sound : compiled.Sound scope ambient)
    {definition name : String} {code : Int}
    (ran : scope.compileName definition name compiled = .ok code next) :
    ∃ operand, code = operand.symbol.code ∧ ambient.Names next.vars name operand ∧
      next.Sound scope ambient ∧ compiled.Precedes next := by
  rcases compileName_ok_or ran with
    ⟨id, found, rfl, rfl⟩ | ⟨notTerm, index, quantity, registered, rfl, same⟩
  · rw [part.terms] at found
    exact ⟨.term id, rfl, .term found, sound, .refl _⟩
  · rw [part.terms] at notTerm
    rcases same with rfl | ⟨matched, rfl⟩
    · obtain ⟨_, matched⟩ := sound.registered _ (List.mem_of_getElem? registered)
      exact ⟨.slot index, rfl, .slot notTerm matched registered, sound, .refl _⟩
    · rw [part.resolver, part.terms] at matched
      exact ⟨.slot index, rfl, .slot notTerm matched registered, sound.register notTerm matched,
        VariableTable.precedes_register _ _ _, fun _ => id⟩

/-- What a step of compiling that succeeds has done. -/
structure Compiles (scope ambient : Scope) (compiled : Compiled) (tokens : List Token)
    (program : Program) (next : Compiled) : Prop where
  sound : next.Sound scope ambient
  precedes : compiled.Precedes next
  renders : ambient.Renders next.vars tokens program

/-- A token that stands for a tree of symbols compiles to them. -/
theorem Compiles.atom {token : Token} {tree : Tree Primitive}
    (sound : next.Sound scope ambient) (precedes : compiled.Precedes next)
    (expands : ambient.Expands next.vars (.atom token) tree) :
    Compiles scope ambient compiled [token] tree.program next where
  sound := sound
  precedes := precedes
  renders := by
    have rendered := Renders.atom expands .nil
    rwa [List.append_nil] at rendered

/-- The symbols of a clause make a program that the clause is replaced by. -/
theorem Renders.clauseExpands {vars : VariableTable} {clause : Clause} {program : Program}
    (formed : clause.Formed) (renders : ambient.Renders vars clause.tokens program) :
    ambient.ClauseExpands vars clause program := by
  obtain ⟨tree, written, atoms⟩ := formed
  rw [← written] at renders
  obtain ⟨compiled, expands, same⟩ :=
    renders.expands (atoms.mono fun _ => Token.IsAtom.isConnective)
  exact ⟨tree, compiled, written, expands, same⟩

/-- An atom that compiles to a program is replaced by what the program writes. -/
theorem Compiles.expands {token : Token} {program : Program} (isAtom : token.IsAtom)
    (compiles : Compiles scope ambient compiled [token] program next) :
    ∃ tree, ambient.Expands next.vars (.atom token) tree ∧ program = tree.program := by
  have proper : (Tree.atom token).Proper := isAtom.isConnective
  exact compiles.renders.expands proper

/-- The symbols of tokens are those that the tokens are replaced by. The induction follows the steps
of compiling; the state after each of them is sound, and what is there before it stays. -/
theorem Yields.compiles (part : scope.PartOf ambient) (formed : ambient.Formed)
    {expanding inlining : List String} {tokens : List Token} {program : Program}
    (yields : scope.Yields expanding inlining tokens compiled program next)
    (atoms : ∀ token ∈ tokens, token.isConnective = false → token.IsAtom)
    (sound : compiled.Sound scope ambient) :
    Compiles scope ambient compiled tokens program next := by
  induction yields with
  | connective kind => exact ⟨sound, .refl _, .connective kind .nil⟩
  | constant value => exact .atom sound (.refl _) (.constant value)
  | bare named =>
      obtain ⟨operand, rfl, names, soundNext, precedes⟩ := compileName_ok part sound named
      exact .atom soundNext precedes (.bare names)
  | comparison namedLeft namedRight =>
      obtain ⟨first, rfl, namesLeft, soundLeft, precedesLeft⟩ :=
        compileName_ok part sound namedLeft
      obtain ⟨second, rfl, namesRight, soundRight, precedesRight⟩ :=
        compileName_ok part soundLeft namedRight
      exact .atom soundRight (precedesLeft.trans precedesRight)
        (.comparison (namesLeft.mono precedesRight.slots) namesRight)
  | macroName free found _ ih =>
      rw [part.macros] at found
      have formedClause := formed.macros _ _ found
      have compiles := ih formedClause.token sound
      obtain ⟨tree, inner, written, expands, rfl⟩ := compiles.renders.clauseExpands formedClause
      exact .atom compiles.sound compiles.precedes (.macroName found written expands)
  | defined known =>
      obtain ⟨_, clause, source, tree, inner, written, expands, same⟩ :=
        sound.definitions _ _ known
      rw [same]
      exact .atom sound (.refl _) (.reference source written expands)
  | reference free source _ ih =>
      have source := part.sources _ _ source
      have formedClause := formed.sources _ _ source
      have compiles := ih formedClause.token sound
      have expandsClause := compiles.renders.clauseExpands formedClause
      have soundNext := compiles.sound.define source expandsClause
      obtain ⟨tree, inner, written, expands, rfl⟩ := expandsClause
      exact .atom soundNext (compiles.precedes.trans (Compiled.precedes_define _ _ _))
        (.reference source written expands)
  | first taken _ ih =>
      obtain ⟨isAtom, _⟩ := atoms _ List.mem_cons_self rfl
      have compiles := ih (List.forall_mem_singleton.2 fun _ => isAtom) sound
      obtain ⟨tree, expands, rfl⟩ := compiles.expands isAtom
      exact .atom compiles.sound compiles.precedes
        (.first ((resolves_iff part sound).1 taken) expands)
  | second passed _ ih =>
      obtain ⟨_, isAtom⟩ := atoms _ List.mem_cons_self rfl
      have compiles := ih (List.forall_mem_singleton.2 fun _ => isAtom) sound
      obtain ⟨tree, expands, rfl⟩ := compiles.expands isAtom
      exact .atom compiles.sound compiles.precedes
        (.second (mt (resolves_iff part sound).2 passed) expands)
  | nil => exact ⟨sound, .refl _, .nil⟩
  | cons _ _ ihHead ihRest =>
      obtain ⟨atomsHead, atomsRest⟩ := List.forall_mem_cons.1 atoms
      obtain ⟨soundMiddle, precedes, renders⟩ :=
        ihHead (List.forall_mem_singleton.2 atomsHead) sound
      obtain ⟨soundNext, precedesNext, rendersRest⟩ := ihRest atomsRest soundMiddle
      exact ⟨soundNext, precedes.trans precedesNext,
        (renders.mono precedesNext.slots).append rendersRest⟩

/-- A clause compiles to a program that it is replaced by. -/
theorem compileClause_ok (part : scope.PartOf ambient) (formed : ambient.Formed)
    {name : String} {clause : Clause} {definition : Definition} (formedClause : clause.Formed)
    (sound : compiled.Sound scope ambient)
    (ran : scope.compileClause name clause compiled = .ok definition next) :
    definition.name = name ∧ next.Sound scope ambient ∧ compiled.Precedes next ∧
      ambient.ClauseExpands next.vars clause definition.program := by
  obtain ⟨program, middle, compiledClause, returned⟩ := EStateM.bind_eq_ok_iff.1 ran
  obtain ⟨rfl, rfl⟩ := EStateM.pure_eq_ok_iff.1 returned
  have compiles :=
    (yields_of_compileTokens compiledClause).compiles part formed formedClause.token sound
  exact ⟨rfl, compiles.sound, compiles.precedes, compiles.renders.clauseExpands formedClause⟩

end Scope

end Randomizer
