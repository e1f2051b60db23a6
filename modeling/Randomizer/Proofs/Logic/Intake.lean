import Randomizer.Proofs.Logic.Ingestion

namespace Randomizer

/-- A text that does not parse is reported under its name. -/
theorem MacroTable.parseWith_error {isMacro : String → Bool} {name text : String} {error : Error}
    (failed : parseWith isMacro name text = .error error) :
    ∃ message, error = .parse name message := by
  unfold parseWith at failed
  cases parsed : Clause.ofText isMacro text with
  | ok clause =>
      rw [parsed] at failed
      cases failed
  | error fault =>
      rw [parsed] at failed
      cases failed
      exact ⟨fault.message, rfl⟩

/-- The error of a batch is that of an entry that does not parse. -/
theorem MacroTable.defineAll_error {table : MacroTable} {batch : List (String × String)}
    {error : Error} (failed : table.defineAll batch = .error error) :
    ∃ name message, error = .parse name message := by
  rw [defineAll_eq, Except.map_eq_error_iff] at failed
  obtain ⟨entry, _, stuck⟩ := Except.exists_of_mapM_error failed
  exact ⟨entry.1, parseWith_error (Except.map_eq_error_iff.1 stuck)⟩

namespace Document

/-- The entries that carry logic: the names that they are filed under, with their texts. -/
def logic : Document → List (String × String)
  | .waypoints records | .locations records =>
    records.map fun record => (record.name, record.logic)
  | .transitions records => records.map fun record => (record.fullName, record.logic)
  | .macros batch => batch.entries
  | .terms _ | .items _ => []

/-- The document as far as its first entries go. -/
def take (count : Nat) : Document → Document
  | .terms names => .terms (names.take count)
  | .waypoints records => .waypoints (records.take count)
  | .transitions records => .transitions (records.take count)
  | .macros batch => .macros (.ofList (batch.entries.take count))
  | .items templates => .items (templates.take count)
  | .locations records => .locations (records.take count)

/-- What counts as a macro while the texts of the document are read. -/
def known (builder : Builder) : Document → String → Bool
  | .macros batch => builder.macros.knownWith batch.entries
  | _ => builder.macros.contains

/-- Where a builder files the clauses of the document. -/
def filed (builder : Builder) : Document → NameMap Clause
  | .macros _ => builder.macros
  | _ => builder.clauses

end Document

namespace Builder

/-- The builder took in the entries before the first one whose text does not parse, which is the
one that is reported. -/
structure StoppedAt (builder : Builder) (document : Document) (count : Nat)
    (name message : String) (next : Builder) : Prop where
  entry : ∃ text, document.logic[count]? = some (name, text) ∧
    builder.macros.parse name text = .error (.parse name message)
  earlier : ∀ entry ∈ document.logic.take count, ∃ clause,
    builder.macros.parse entry.1 entry.2 = .ok clause
  before : ingest (document.take count) builder = .ok () next

/-- What a document with a fault in it makes of a builder. -/
inductive BreaksOff (builder : Builder) : Document → Error → Builder → Prop where
  /-- Macros come in as a whole or not at all. -/
  | macros {batch : NameMap String} {name message : String} :
      BreaksOff builder (.macros batch) (.parse name message) builder
  | records {document : Document} {count : Nat} {name message : String} {next : Builder} :
      (∀ batch, document ≠ .macros batch) → builder.StoppedAt document count name message next →
      BreaksOff builder document (.parse name message) next

section AddEach

variable {α : Type} {add : Builder → α → Except Error Builder} {logic : α → String × String}
  {builder next : Builder} {entry : α} {entries : List α} {error : Error}

/-- An entry that is added is followed by the rest. -/
theorem addEach_cons_of_ok {middle : Builder} (added : add builder entry = .ok middle) :
    addEach add (entry :: entries) builder = addEach add entries middle := by
  rw [addEach, EStateM.get_bind_apply, added]
  rfl

/-- An entry that fails leaves the builder as it was before it. -/
theorem addEach_cons_of_error (failed : add builder entry = .error error) :
    addEach add (entry :: entries) builder = .error error builder := by
  rw [addEach, EStateM.get_bind_apply, failed]
  rfl

/-- Entries are parsed under the macros of the builder, which stay as they are, and their clauses
are filed under their names. -/
structure Files (add : Builder → α → Except Error Builder) (logic : α → String × String) :
    Prop where
  add_of_parse : ∀ {builder entry clause},
    builder.macros.parse (logic entry).1 (logic entry).2 = .ok clause →
    ∃ next, add builder entry = .ok next ∧ next.macros = builder.macros ∧
      next.clauses = builder.clauses.insert (logic entry).1 clause
  add_of_fault : ∀ {builder entry error},
    builder.macros.parse (logic entry).1 (logic entry).2 = .error error →
    add builder entry = .error error

/-- When all entries come through, each was parsed and filed in its turn. -/
theorem Files.addEach_ok (files : Files add logic)
    (ran : addEach add entries builder = .ok () next) :
    next.macros = builder.macros ∧ ∃ bindings,
      MacroTable.readAll builder.macros.contains (entries.map logic) = .ok bindings ∧
        next.clauses = builder.clauses.insertAll bindings := by
  induction entries generalizing builder with
  | nil =>
      cases ran
      exact ⟨rfl, [], rfl, rfl⟩
  | cons entry rest ih =>
      cases parsed : builder.macros.parse (logic entry).1 (logic entry).2 with
      | error cause =>
          rw [addEach_cons_of_error (files.add_of_fault parsed)] at ran
          cases ran
      | ok clause =>
          obtain ⟨middle, added, macros, clauses⟩ := files.add_of_parse parsed
          rw [addEach_cons_of_ok added] at ran
          obtain ⟨macrosNext, bindings, read, clausesNext⟩ := ih ran
          rw [macros] at macrosNext read
          rw [clauses] at clausesNext
          exact ⟨macrosNext, _, MacroTable.readAll_cons_of_parse parsed read, clausesNext⟩

/-- The first entry that does not parse ends the work, and those before it have come through. -/
theorem Files.addEach_error (files : Files add logic)
    (failed : addEach add entries builder = .error error next) :
    ∃ count entry, entries[count]? = some entry ∧
      builder.macros.parse (logic entry).1 (logic entry).2 = .error error ∧
      (∀ earlier ∈ entries.take count, ∃ clause,
        builder.macros.parse (logic earlier).1 (logic earlier).2 = .ok clause) ∧
      addEach add (entries.take count) builder = .ok () next := by
  induction entries generalizing builder with
  | nil => cases failed
  | cons entry rest ih =>
      cases parsed : builder.macros.parse (logic entry).1 (logic entry).2 with
      | error cause =>
          rw [addEach_cons_of_error (files.add_of_fault parsed)] at failed
          cases failed
          exact ⟨0, entry, rfl, parsed, nofun, rfl⟩
      | ok clause =>
          obtain ⟨middle, added, macros, _⟩ := files.add_of_parse parsed
          rw [addEach_cons_of_ok added] at failed
          obtain ⟨count, stuck, found, fault, earlier, before⟩ := ih failed
          rw [macros] at fault earlier
          refine ⟨count + 1, stuck, found, fault, ?_, ?_⟩
          · exact List.forall_mem_cons.2 ⟨⟨clause, parsed⟩, earlier⟩
          · rw [List.take_succ_cons, addEach_cons_of_ok added]
            exact before

end AddEach

/-- A location files its logic under its name. -/
theorem files_addLocation : Files addLocation fun record => (record.name, record.logic) where
  add_of_parse := fun parsed => ⟨_, congrArg _ parsed, rfl, rfl⟩
  add_of_fault := fun failed => congrArg _ failed

/-- A waypoint files its logic under its name. -/
theorem files_addWaypoint : Files addWaypoint fun record => (record.name, record.logic) where
  add_of_parse := fun parsed => ⟨_, congrArg _ parsed, rfl, rfl⟩
  add_of_fault := fun failed => congrArg _ failed

/-- A transition files its logic under its full name. -/
theorem files_addTransition :
    Files addTransition fun record => (record.fullName, record.logic) where
  add_of_parse := fun parsed => ⟨_, congrArg _ parsed, rfl, rfl⟩
  add_of_fault := fun failed => congrArg _ failed

section Batches

variable {builder next : Builder} {batch : List (String × String)} {error : Error}

/-- A batch with a fault is not taken in at all. -/
theorem defineMacros_error (failed : addEach defineMacros [batch] builder = .error error next) :
    next = builder ∧ builder.macros.defineAll batch = .error error := by
  cases added : builder.defineMacros batch with
  | ok middle =>
      rw [addEach_cons_of_ok added] at failed
      cases failed
  | error cause =>
      rw [addEach_cons_of_error added] at failed
      cases failed
      exact ⟨rfl, Except.map_eq_error_iff.1 added⟩

/-- Macros that are taken in are the batch that is defined. -/
theorem defineMacros_ok (ran : addEach defineMacros [batch] builder = .ok () next) :
    builder.macros.defineAll batch = .ok next.macros := by
  cases added : builder.defineMacros batch with
  | ok middle =>
      rw [addEach_cons_of_ok added] at ran
      cases ran
      obtain ⟨macros, defined, rfl⟩ := Except.map_eq_ok_iff.1 added
      exact defined
  | error cause =>
      rw [addEach_cons_of_error added] at ran
      cases ran

end Batches

section Ingest

variable {builder next : Builder} {document : Document} {error : Error}

/-- A fault among records stops the builder at the first of them that does not parse. -/
theorem Files.breaksOff {α : Type} {add : Builder → α → Except Error Builder}
    {logic : α → String × String} (files : Files add logic) {entries : List α}
    {ofList : List α → Document}
    (ingests : ∀ records, ingest (ofList records) = addEach add records)
    (reads : ∀ records, (ofList records).logic = records.map logic)
    (takes : ∀ count records, (ofList records).take count = ofList (records.take count))
    (records : ∀ batch, ofList entries ≠ .macros batch)
    (failed : ingest (ofList entries) builder = .error error next) :
    builder.BreaksOff (ofList entries) error next := by
  rw [ingests] at failed
  obtain ⟨count, entry, found, fault, earlier, before⟩ := files.addEach_error failed
  obtain ⟨message, rfl⟩ := MacroTable.parseWith_error fault
  have stopped : builder.StoppedAt (ofList entries) count (logic entry).1 message next := {
    entry := by
      refine ⟨(logic entry).2, ?_, fault⟩
      rw [reads, List.getElem?_map, found]
      rfl
    earlier := by
      rw [reads, ← List.map_take]
      exact List.forall_mem_map.2 earlier
    before := by
      rw [takes, ingests]
      exact before }
  exact .records records stopped

/-- Records that all come through leave the last of each name. -/
theorem Files.holdsLast {α : Type} {add : Builder → α → Except Error Builder}
    {logic : α → String × String} (files : Files add logic) {entries : List α}
    (ran : addEach add entries builder = .ok () next) :
    next.clauses.HoldsLast builder.macros.contains (entries.map logic) := by
  obtain ⟨_, bindings, read, clauses⟩ := files.addEach_ok ran
  rw [clauses]
  exact MacroTable.holdsLast_insertAll read builder.clauses

/-- A document fails only on a text that does not parse. -/
theorem breaksOff_of_ingest (failed : ingest document builder = .error error next) :
    builder.BreaksOff document error next := by
  cases document with
  | terms | items => cases failed
  | waypoints =>
      exact files_addWaypoint.breaksOff (fun _ => rfl) (fun _ => rfl) (fun _ _ => rfl) nofun failed
  | transitions =>
      exact files_addTransition.breaksOff (fun _ => rfl) (fun _ => rfl) (fun _ _ => rfl) nofun
        failed
  | locations =>
      exact files_addLocation.breaksOff (fun _ => rfl) (fun _ => rfl) (fun _ _ => rfl) nofun failed
  | macros batch =>
      obtain ⟨rfl, refused⟩ := defineMacros_error failed
      obtain ⟨name, message, rfl⟩ := MacroTable.defineAll_error refused
      exact .macros

/-- After a document each name that it gives logic to has the last one given. -/
theorem holdsLast_of_ingest (ran : ingest document builder = .ok () next) :
    (document.filed next).HoldsLast (document.known builder) document.logic := by
  cases document with
  | terms | items =>
      intro before name text after split
      cases before <;> cases split
  | waypoints => exact files_addWaypoint.holdsLast ran
  | transitions => exact files_addTransition.holdsLast ran
  | locations => exact files_addLocation.holdsLast ran
  | macros => exact MacroTable.holdsLast_defineAll (defineMacros_ok ran)

/-- Ingestion that fails stops cleanly. A document that cannot be read leaves the builder alone; one
with a text that does not parse leaves what its earlier records make, or nothing of its macros; and
so does a batch of macros by itself. Where all goes well, the last entry of each name counts. -/
theorem ingestJson_breaksOff_or_holdsLast (builder : Builder) :
    (∀ kind json error next, ingestJson kind json builder = .error error next →
      (∃ context message, error = .json context message) ∧ next = builder ∨
        ∃ document, Document.ofJson? kind json = some document ∧
          builder.BreaksOff document error next) ∧
    (∀ kind json next, ingestJson kind json builder = .ok () next →
      ∃ document, Document.ofJson? kind json = some document ∧
        (document.filed next).HoldsLast (document.known builder) document.logic) ∧
    ∀ batch,
      (∀ error next, addEach defineMacros [batch] builder = .error error next →
        next = builder) ∧
      ∀ next, addEach defineMacros [batch] builder = .ok () next →
        NameMap.HoldsLast next.macros (builder.macros.knownWith batch) batch := by
  refine ⟨fun kind json error next failed => ?_, fun kind json next ran => ?_,
    fun batch => ⟨?_, ?_⟩⟩
  · unfold ingestJson at failed
    cases read : Document.ofJson? kind json with
    | none =>
        rw [read] at failed
        cases failed
        exact .inl ⟨⟨_, _, rfl⟩, rfl⟩
    | some document =>
        rw [read] at failed
        exact .inr ⟨document, rfl, breaksOff_of_ingest failed⟩
  · unfold ingestJson at ran
    cases read : Document.ofJson? kind json with
    | none =>
        rw [read] at ran
        cases ran
    | some document =>
        rw [read] at ran
        exact ⟨document, rfl, holdsLast_of_ingest ran⟩
  · exact fun error next failed => (defineMacros_error failed).1
  · exact fun next ran => MacroTable.holdsLast_defineAll (defineMacros_ok ran)

/-- Four gates, two of them without names; the third one's text breaks off. -/
def quays : List TransitionRecord := [
  ⟨"Pier", "Dock", "north", "Lamp", .twoWay⟩,
  ⟨"", "Quay", "left", "*Pier | Lamp", .twoWay⟩,
  ⟨"", "Quay", "right", "Lamp +", .oneWayIn⟩,
  ⟨"Pier", "Dock", "south", "Rope", .twoWay⟩]

def quayPage : Json := .array (quays.map TransitionRecord.toJson)

/-- The page breaks off at its third gate. -/
theorem ingestJson_breaksOff_quays :
    ∃ next count, ingestJson .transitions quayPage ∅ =
        .error (.parse "Quay[right]" "unexpected end of logic") next ∧
      StoppedAt ∅ (.transitions quays) count "Quay[right]" "unexpected end of logic" next := by
  have answer : EStateM.answer (ingestJson .transitions quayPage ∅) =
      .error (.parse "Quay[right]" "unexpected end of logic") := by
    decide +kernel
  have read : Document.ofJson? .transitions quayPage = some (.transitions quays) := rfl
  cases ran : ingestJson .transitions quayPage ∅ with
  | ok _ next =>
      rw [ran] at answer
      cases answer
  | error error next =>
      rw [ran] at answer
      cases answer
      rcases (ingestJson_breaksOff_or_holdsLast ∅).1 _ _ _ _ ran with
        ⟨⟨_, _, ⟨⟩⟩, _⟩ | ⟨document, readDocument, breaksOff⟩
      rw [read] at readDocument
      cases readDocument
      cases breaksOff with
      | records _ stopped => exact ⟨next, _, rfl, stopped⟩

end Ingest

end Builder

end Randomizer
