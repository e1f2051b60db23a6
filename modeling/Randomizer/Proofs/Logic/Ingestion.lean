import Randomizer.Logic.Builder
import Randomizer.Proofs.Logic.Batch
import Randomizer.Proofs.Logic.Reading

namespace Randomizer

namespace Builder

/-- A builder that started empty and took in terms, macros, records and templates one by one. -/
inductive Ingested : Builder → Prop where
  | start (resolver : Resolver) : Ingested { empty with resolver }
  | addTerm {builder : Builder} (name : String) : Ingested builder →
      Ingested (builder.addTerm name)
  | addTemplate {builder : Builder} (template : ItemTemplate) : Ingested builder →
      Ingested (builder.addTemplate template)
  | defineMacro {builder next : Builder} {name text : String} : Ingested builder →
      builder.defineMacro name text = .ok next → Ingested next
  | defineMacros {builder next : Builder} {batch : List (String × String)} : Ingested builder →
      builder.defineMacros batch = .ok next → Ingested next
  | addLocation {builder next : Builder} {record : LogicRecord} : Ingested builder →
      builder.addLocation record = .ok next → Ingested next
  | addWaypoint {builder next : Builder} {record : LogicRecord} : Ingested builder →
      builder.addWaypoint record = .ok next → Ingested next
  | addTransition {builder next : Builder} {record : TransitionRecord} : Ingested builder →
      builder.addTransition record = .ok next → Ingested next

/-- One step of ingestion, or another resolver put in place. -/
inductive Ingests : Builder → Builder → Prop where
  | useResolver (builder : Builder) (resolver : Resolver) :
      Ingests builder { builder with resolver }
  | addTerm (builder : Builder) (name : String) : Ingests builder (builder.addTerm name)
  | addTemplate (builder : Builder) (template : ItemTemplate) :
      Ingests builder (builder.addTemplate template)
  | defineMacro {builder next : Builder} {name text : String} :
      builder.defineMacro name text = .ok next → Ingests builder next
  | defineMacros {builder next : Builder} {batch : List (String × String)} :
      builder.defineMacros batch = .ok next → Ingests builder next
  | addLocation {builder next : Builder} {record : LogicRecord} :
      builder.addLocation record = .ok next → Ingests builder next
  | addWaypoint {builder next : Builder} {record : LogicRecord} :
      builder.addWaypoint record = .ok next → Ingests builder next
  | addTransition {builder next : Builder} {record : TransitionRecord} :
      builder.addTransition record = .ok next → Ingests builder next

/-- What holds at the start and is kept by every step holds of every builder that was filled by
ingestion. -/
theorem Ingested.invariant {motive : Builder → Prop}
    (start : ∀ resolver, motive { empty with resolver })
    (step : ∀ builder next, Ingests builder next → motive builder → motive next)
    {builder : Builder} (ingested : builder.Ingested) : motive builder := by
  induction ingested with
  | start resolver => exact start resolver
  | addTerm name _ ih => exact step _ _ (.addTerm _ name) ih
  | addTemplate template _ ih => exact step _ _ (.addTemplate _ template) ih
  | defineMacro _ added ih => exact step _ _ (.defineMacro added) ih
  | defineMacros _ added ih => exact step _ _ (.defineMacros added) ih
  | addLocation _ added ih => exact step _ _ (.addLocation added) ih
  | addWaypoint _ added ih => exact step _ _ (.addWaypoint added) ih
  | addTransition _ added ih => exact step _ _ (.addTransition added) ih

/-- Entries added one by one keep what each of them keeps, up to the first that fails. -/
theorem keeps_addEach {α : Type} {add : Builder → α → Except Error Builder} {keep : Builder → Prop}
    (each : ∀ builder next entry, add builder entry = .ok next → keep builder → keep next)
    (entries : List α) : EStateM.Keeps (addEach add entries) keep := by
  induction entries with
  | nil => exact EStateM.keeps_pure _
  | cons entry rest ih =>
      intro builder kept
      unfold EStateM.ending addEach
      rw [EStateM.get_bind_apply]
      cases added : add builder entry with
      | ok next => exact ih next (each builder next entry added kept)
      | error error => exact kept

/-- A document is ingested by steps that leave the resolver in place, up to its first fault. -/
theorem keeps_ingest {keep : Builder → Prop}
    (step : ∀ builder next, Ingests builder next → next.resolver = builder.resolver →
      keep builder → keep next) (document : Document) : EStateM.Keeps (ingest document) keep := by
  have added {builder next : Builder} {α : Type} {work : Except Error α} {change : α → Builder}
      (ingests : Ingests builder next) (ran : work.map change = .ok next)
      (same : ∀ value, (change value).resolver = builder.resolver) (kept : keep builder) :
      keep next := by
    obtain ⟨value, _, changed⟩ := Except.map_eq_ok_iff.1 ran
    refine step builder next ingests ?_ kept
    rw [← changed, same]
  cases document with
  | terms names =>
      refine EStateM.keeps_modify fun builder kept => ?_
      induction names generalizing builder with
      | nil => exact kept
      | cons name rest ih => exact ih _ (step _ _ (.addTerm builder name) rfl kept)
  | items templates =>
      refine EStateM.keeps_modify fun builder kept => ?_
      induction templates generalizing builder with
      | nil => exact kept
      | cons template rest ih => exact ih _ (step _ _ (.addTemplate builder template) rfl kept)
  | waypoints records =>
      exact keeps_addEach (fun _ _ _ ran => added (.addWaypoint ran) ran fun _ => rfl) records
  | transitions records =>
      exact keeps_addEach (fun _ _ _ ran => added (.addTransition ran) ran fun _ => rfl) records
  | macros batch =>
      exact keeps_addEach (fun _ _ _ ran => added (.defineMacros ran) ran fun _ => rfl) _
  | locations records =>
      exact keeps_addEach (fun _ _ _ ran => added (.addLocation ran) ran fun _ => rfl) records

/-- A document that cannot be read is not ingested at all. -/
theorem keeps_ingestJson {keep : Builder → Prop}
    (ingest : ∀ document, EStateM.Keeps (Builder.ingest document) keep) (kind : DocumentKind)
    (json : Json) : EStateM.Keeps (ingestJson kind json) keep := by
  unfold ingestJson
  split
  · exact ingest _
  · exact EStateM.keeps_throw _

/-- What every document keeps, a text keeps, also when it fails. -/
theorem keeps_ingestText {keep : Builder → Prop}
    (ingest : ∀ document, EStateM.Keeps (Builder.ingest document) keep) (kind : DocumentKind)
    (text : String) : EStateM.Keeps (ingestText kind text) keep := by
  unfold ingestText
  split
  · exact keeps_ingestJson ingest kind _
  · exact EStateM.keeps_throw _

/-- A builder that goes through one more document is ingested. -/
theorem Ingests.ingested {builder next : Builder} (ingests : Ingests builder next)
    (same : next.resolver = builder.resolver) (ingested : builder.Ingested) : next.Ingested := by
  cases ingests with
  | useResolver =>
      obtain rfl : _ = builder.resolver := same
      exact ingested
  | addTerm name => exact ingested.addTerm name
  | addTemplate template => exact ingested.addTemplate template
  | defineMacro added => exact ingested.defineMacro added
  | defineMacros added => exact ingested.defineMacros added
  | addLocation added => exact ingested.addLocation added
  | addWaypoint added => exact ingested.addWaypoint added
  | addTransition added => exact ingested.addTransition added

/-- A document leaves what its entries would leave, added one by one up to its first fault. -/
theorem Ingested.ingest {builder : Builder} (ingested : builder.Ingested) (document : Document) :
    (EStateM.ending (Builder.ingest document) builder).Ingested :=
  keeps_ingest (fun _ _ ingests same => ingests.ingested same) document builder ingested

/-- A text of a document keeps a builder filled by ingestion, also when it cannot be read. -/
theorem Ingested.ingestText {builder : Builder} (ingested : builder.Ingested)
    (kind : DocumentKind) (text : String) :
    (EStateM.ending (Builder.ingestText kind text) builder).Ingested :=
  keeps_ingestText (fun document _ kept => kept.ingest document) kind text builder ingested

/-- The builder that documents fill, each up to its first fault. -/
def ofDocuments (documents : List Document) : Builder :=
  documents.foldl (fun builder document => EStateM.ending (Builder.ingest document) builder) ∅

/-- A builder that takes documents in order is ingested. -/
theorem ingested_ofDocuments (documents : List Document) : (ofDocuments documents).Ingested := by
  have filled (builder : Builder) (ingested : builder.Ingested) :
      (documents.foldl (fun builder document =>
        EStateM.ending (Builder.ingest document) builder) builder).Ingested := by
    induction documents generalizing builder with
    | nil => exact ingested
    | cons document rest ih => exact ih _ (ingested.ingest document)
  exact filled ∅ (.start Resolver.integers)

/-- No document adds a prefab. -/
theorem Ingests.prefabs {builder next : Builder} (ingests : Ingests builder next) :
    next.prefabs = builder.prefabs := by
  cases ingests with
  | useResolver | addTerm | addTemplate => rfl
  | defineMacro added | defineMacros added | addLocation added | addWaypoint added
  | addTransition added =>
      obtain ⟨_, _, rfl⟩ := Except.map_eq_ok_iff.1 added
      rfl

/-- An ingested builder has no prefabs. -/
theorem Ingested.prefabs {builder : Builder} (ingested : builder.Ingested) :
    builder.prefabs = ∅ :=
  ingested.invariant (fun _ => rfl) fun _ _ ingests none => ingests.prefabs.trans none

end Builder

/-- Every clause of a table was read from text. -/
def NameMap.Readable (clauses : NameMap Clause) : Prop :=
  ∀ name clause, clauses.get? name = some clause → clause.Readable

namespace MacroTable

/-- A clause that is parsed can be read. -/
theorem readable_of_parseWith {isMacro : String → Bool} {name text : String} {clause : Clause}
    (parsed : parseWith isMacro name text = .ok clause) : clause.Readable :=
  Clause.readable_of_ofText (Except.mapError_eq_ok_iff.1 parsed)

/-- A clause that is parsed names no macros but known ones. -/
theorem macrosIn_of_parseWith {isMacro : String → Bool} {name text : String} {clause : Clause}
    (parsed : parseWith isMacro name text = .ok clause) : clause.MacrosIn isMacro :=
  Clause.macrosIn_of_ofText (Except.mapError_eq_ok_iff.1 parsed)

/-- The clauses that a batch adds were read with the old macros and those of the batch known, which
are the macros of the new table. -/
theorem defineAll_ok {table next : MacroTable} {batch : List (String × String)}
    (defined : table.defineAll batch = .ok next) :
    ∃ parsed : List (String × Clause), next = table.insertAll parsed ∧
      ∀ binding ∈ parsed, ∃ name text, parseWith next.contains name text = .ok binding.2 := by
  have known := contains_defineAll defined
  obtain ⟨parsed, read, rfl⟩ := Except.map_eq_ok_iff.1 defined
  refine ⟨parsed, rfl, fun binding member => ?_⟩
  obtain ⟨entry, _, parsedEntry⟩ := Except.exists_of_mem_mapM read member
  obtain ⟨clause, parsedText, rfl⟩ := Except.map_eq_ok_iff.1 parsedEntry
  rw [known]
  exact ⟨entry.1, entry.2, parsedText⟩

end MacroTable

namespace Builder

/-- Every clause of the builder, in the macro table or to be compiled, has the property. -/
def AllClauses (property : Clause → Prop) (builder : Builder) : Prop :=
  builder.macros.All property ∧ builder.clauses.All property

/-- A property of all that is read from text is kept by ingestion. -/
theorem Ingests.allClauses {property : Clause → Prop}
    (ofText : ∀ isMacro name text clause,
      MacroTable.parseWith isMacro name text = .ok clause → property clause)
    {builder next : Builder} (ingests : Ingests builder next)
    (all : builder.AllClauses property) : next.AllClauses property := by
  cases ingests with
  | useResolver | addTerm | addTemplate => exact all
  | defineMacro added =>
      obtain ⟨_, defined, rfl⟩ := Except.map_eq_ok_iff.1 added
      obtain ⟨clause, parsed, rfl⟩ := Except.map_eq_ok_iff.1 defined
      exact ⟨all.1.insert _ (ofText _ _ _ _ parsed), all.2⟩
  | defineMacros added =>
      obtain ⟨_, defined, rfl⟩ := Except.map_eq_ok_iff.1 added
      obtain ⟨parsed, rfl, each⟩ := MacroTable.defineAll_ok defined
      refine ⟨all.1.insertAll fun binding member => ?_, all.2⟩
      obtain ⟨_, _, parsedText⟩ := each binding member
      exact ofText _ _ _ _ parsedText
  | addLocation added | addWaypoint added | addTransition added =>
      obtain ⟨clause, parsed, rfl⟩ := Except.map_eq_ok_iff.1 added
      exact ⟨all.1, all.2.insert _ (ofText _ _ _ _ parsed)⟩

/-- Every clause that the builder holds was read from text. -/
theorem Ingested.readable {builder : Builder} (ingested : builder.Ingested) :
    builder.macros.Readable ∧ builder.clauses.Readable := by
  refine ingested.invariant (motive := AllClauses Clause.Readable) ?_ fun _ _ ingests =>
    ingests.allClauses fun _ _ _ _ => MacroTable.readable_of_parseWith
  exact fun _ => ⟨NameMap.all_empty, NameMap.all_empty⟩

/-- The clauses of the builder mention only macros that the builder has. -/
def MacrosKnown (builder : Builder) : Prop :=
  builder.AllClauses (Clause.MacrosIn builder.macros.contains)

/-- After a document all macros that are named are still known. -/
theorem Ingests.macrosKnown {builder next : Builder} (ingests : Ingests builder next)
    (known : builder.MacrosKnown) : next.MacrosKnown := by
  have widen {macros : MacroTable} (more : ∀ name, builder.macros.contains name →
      macros.contains name) : builder.AllClauses (Clause.MacrosIn macros.contains) :=
    ⟨known.1.mono fun _ => Clause.MacrosIn.mono more,
      known.2.mono fun _ => Clause.MacrosIn.mono more⟩
  cases ingests with
  | useResolver | addTerm | addTemplate => exact known
  | @defineMacro _ name text added =>
      obtain ⟨_, defined, rfl⟩ := Except.map_eq_ok_iff.1 added
      obtain ⟨clause, parsed, rfl⟩ := Except.map_eq_ok_iff.1 defined
      have more (other : String) (isMacro : builder.macros.contains other) :
          (NameMap.insert builder.macros name clause).contains other := by
        rw [NameMap.contains_insert, isMacro, Bool.or_true]
      have ofClause := (MacroTable.macrosIn_of_parseWith parsed).mono more
      exact ⟨(widen more).1.insert name ofClause, (widen more).2⟩
  | defineMacros added =>
      obtain ⟨macros, defined, rfl⟩ := Except.map_eq_ok_iff.1 added
      obtain ⟨parsed, same, each⟩ := MacroTable.defineAll_ok defined
      have more (other : String) (isMacro : builder.macros.contains other) :
          macros.contains other := by
        rw [same, NameMap.contains_insertAll, isMacro, Bool.or_true]
      refine ⟨?_, (widen more).2⟩
      change NameMap.All (Clause.MacrosIn macros.contains) macros
      have all : NameMap.All (Clause.MacrosIn macros.contains)
          (NameMap.insertAll builder.macros parsed) := by
        refine (widen more).1.insertAll fun binding member => ?_
        obtain ⟨_, _, parsedText⟩ := each binding member
        exact MacroTable.macrosIn_of_parseWith parsedText
      rwa [← same] at all
  | addLocation added | addWaypoint added | addTransition added =>
      obtain ⟨clause, parsed, rfl⟩ := Except.map_eq_ok_iff.1 added
      exact ⟨known.1, known.2.insert _ (MacroTable.macrosIn_of_parseWith parsed)⟩

/-- All macros that an ingested builder names are known. -/
theorem Ingested.macrosKnown {builder : Builder} (ingested : builder.Ingested) :
    builder.MacrosKnown :=
  ingested.invariant (fun _ => ⟨NameMap.all_empty, NameMap.all_empty⟩)
    fun _ _ ingests => ingests.macrosKnown

/-- Waypoints and transitions have a term and a clause under their names. -/
def Anchored (builder : Builder) : Prop :=
  ∀ name, builder.waypoints.contains name ∨ builder.transitions.contains name →
    name ∈ builder.terms.names ∧ builder.clauses.contains name

/-- After a document every waypoint and transition still has its term and its clause. -/
theorem Ingests.anchored {builder next : Builder} (ingests : Ingests builder next)
    (anchored : builder.Anchored) : next.Anchored := by
  have kept {terms : TermTable} {clauses : NameMap Clause}
      (moreTerms : builder.terms.names <+: terms.names)
      (moreClauses : ∀ name, builder.clauses.contains name → clauses.contains name) (name : String)
      (known : builder.waypoints.contains name ∨ builder.transitions.contains name) :
      name ∈ terms.names ∧ clauses.contains name := by
    obtain ⟨isTerm, hasClause⟩ := anchored name known
    exact ⟨moreTerms.subset isTerm, moreClauses name hasClause⟩
  have inserted (name other : String) (clause : Clause) (known : builder.clauses.contains other) :
      (builder.clauses.insert name clause).contains other := by
    rw [NameMap.contains_insert, known, Bool.or_true]
  cases ingests with
  | useResolver | addTemplate => exact anchored
  | addTerm name => exact kept (TermTable.names_add _ name) fun _ => id
  | defineMacro added | defineMacros added =>
      obtain ⟨_, _, rfl⟩ := Except.map_eq_ok_iff.1 added
      exact anchored
  | addLocation added =>
      obtain ⟨clause, _, rfl⟩ := Except.map_eq_ok_iff.1 added
      exact kept List.prefix_rfl fun other => inserted _ other clause
  | @addWaypoint _ record added =>
      obtain ⟨clause, _, rfl⟩ := Except.map_eq_ok_iff.1 added
      intro name known
      by_cases here : name = record.name
      · subst here
        exact ⟨TermTable.mem_add _ _, by simp [NameMap.contains_insert]⟩
      · refine kept (TermTable.names_add _ _) (fun other => inserted _ other clause) name
          (known.imp_left fun found => ?_)
        simpa [NameMap.contains_insert, here] using found
  | @addTransition _ record added =>
      obtain ⟨clause, _, rfl⟩ := Except.map_eq_ok_iff.1 added
      intro name known
      by_cases here : name = record.fullName
      · subst here
        exact ⟨TermTable.mem_add _ _, by simp [NameMap.contains_insert]⟩
      · refine kept (TermTable.names_add _ _) (fun other => inserted _ other clause) name
          (known.imp_right fun found => ?_)
        simpa [NameMap.contains_insert, here] using found

/-- Every waypoint and transition of an ingested builder has its term and its clause. -/
theorem Ingested.anchored {builder : Builder} (ingested : builder.Ingested) : builder.Anchored := by
  refine ingested.invariant (fun _ name known => ?_) fun _ _ ingests => ingests.anchored
  rcases known with none | none
  · exact absurd none (NameMap.not_contains_empty name)
  · exact absurd none (NameMap.not_contains_empty name)

end Builder

end Randomizer
