import Randomizer.Logic.MacroTable
import Randomizer.Proofs.NameMap
import Randomizer.Proofs.Outcome

namespace Randomizer

/-- Under each name of the entries there is what the last text of that name parses to. -/
def NameMap.HoldsLast (clauses : NameMap Clause) (isMacro : String → Bool)
    (entries : List (String × String)) : Prop :=
  ∀ before name text after, entries = before ++ (name, text) :: after →
    name ∉ after.map Prod.fst →
    ∃ clause, MacroTable.parseWith isMacro name text = .ok clause ∧
      clauses.get? name = some clause

namespace MacroTable

/-- The clauses of all entries under their names, if every text parses. -/
def readAll (isMacro : String → Bool) (entries : List (String × String)) :
    Except Error (List (String × Clause)) :=
  entries.mapM fun entry =>
    (parseWith isMacro entry.1 entry.2).map fun clause => (entry.1, clause)

/-- What counts as a macro while a batch is read. -/
def knownWith (table : MacroTable) (batch : List (String × String)) (name : String) : Bool :=
  (batch.map Prod.fst).contains name || table.contains name

/-- A batch is read as a whole, with all its names known, before any of it is inserted. -/
theorem defineAll_eq (table : MacroTable) (batch : List (String × String)) :
    table.defineAll batch = (readAll (table.knownWith batch) batch).map table.insertAll := rfl

section ReadAll

variable {isMacro : String → Bool} {entries : List (String × String)}
  {bindings : List (String × Clause)}

/-- The bindings that are read have the names of the entries, in order. -/
theorem names_of_readAll (read : readAll isMacro entries = .ok bindings) :
    bindings.map Prod.fst = entries.map Prod.fst := by
  refine Except.map_of_mapM (fun entry binding parsed => ?_) read
  obtain ⟨_, _, rfl⟩ := Except.map_eq_ok_iff.1 parsed
  rfl

/-- An entry that parses is read before the rest. -/
theorem readAll_cons_of_parse {name text : String} {clause : Clause}
    (parsed : parseWith isMacro name text = .ok clause)
    (read : readAll isMacro entries = .ok bindings) :
    readAll isMacro ((name, text) :: entries) = .ok ((name, clause) :: bindings) := by
  rw [readAll] at read
  rw [readAll, List.mapM_cons, read, parsed]
  rfl

/-- Clauses that are added in the order of their entries leave the last one of each name. -/
theorem holdsLast_insertAll (read : readAll isMacro entries = .ok bindings)
    (clauses : NameMap Clause) : (clauses.insertAll bindings).HoldsLast isMacro entries := by
  rintro before name text after rfl last
  obtain ⟨earlier, binding, later, _, parsed, readAfter, rfl⟩ :=
    Except.mapM_append_cons_eq_ok_iff.1 read
  obtain ⟨clause, parsedText, rfl⟩ := Except.map_eq_ok_iff.1 parsed
  rw [← names_of_readAll readAfter] at last
  exact ⟨clause, parsedText, NameMap.get?_insertAll_of_last last⟩

end ReadAll

section DefineAll

variable {table next : MacroTable} {batch others : List (String × String)}

/-- The new table knows the names that counted as macros while the batch was read. -/
theorem contains_defineAll (defined : table.defineAll batch = .ok next) :
    NameMap.contains next = table.knownWith batch := by
  obtain ⟨bindings, read, rfl⟩ := Except.map_eq_ok_iff.1 defined
  funext name
  rw [NameMap.contains_insertAll, names_of_readAll read, knownWith]

/-- After a batch the table holds the last entry under each of its names. -/
theorem holdsLast_defineAll (defined : table.defineAll batch = .ok next) :
    NameMap.HoldsLast next (table.knownWith batch) batch := by
  obtain ⟨bindings, read, rfl⟩ := Except.map_eq_ok_iff.1 defined
  exact holdsLast_insertAll read table

/-- A name that is not in the batch keeps its macro. -/
theorem get?_defineAll_of_notMem (defined : table.defineAll batch = .ok next) {name : String}
    (fresh : name ∉ batch.map Prod.fst) : next.get? name = table.get? name := by
  obtain ⟨bindings, read, rfl⟩ := Except.map_eq_ok_iff.1 defined
  exact NameMap.get?_insertAll_of_notMem (names_of_readAll read ▸ fresh)

/-- Which names are known does not depend on the order of the batch. -/
theorem knownWith_perm (same : batch.Perm others) :
    table.knownWith batch = table.knownWith others := by
  funext name
  rw [knownWith, knownWith, (same.map Prod.fst).contains_eq]

/-- A batch without a name twice may come in any order. -/
theorem defineAll_of_perm (distinct : (batch.map Prod.fst).Nodup) (same : batch.Perm others)
    (defined : table.defineAll batch = .ok next) : table.defineAll others = .ok next := by
  obtain ⟨bindings, read, rfl⟩ := Except.map_eq_ok_iff.1 defined
  obtain ⟨permuted, readOthers, perm⟩ := Except.exists_mapM_of_perm same read
  rw [← names_of_readAll read] at distinct
  rw [defineAll_eq, ← knownWith_perm same, NameMap.insertAll_perm table perm distinct]
  exact Except.map_eq_ok_iff.2 ⟨permuted, readOthers, rfl⟩

/-- A batch of macros with different names is taken in one order just when it is taken in another,
and leaves the same table: under each name its own text, read with all names of the batch and all
macros from before known, and under every other name what was there. -/
theorem defineAll_perm (table : MacroTable) (distinct : (batch.map Prod.fst).Nodup)
    (same : batch.Perm others) :
    ((∃ next, table.defineAll batch = .ok next) ↔ ∃ next, table.defineAll others = .ok next) ∧
    ∀ next, table.defineAll batch = .ok next →
      table.defineAll others = .ok next ∧
      (∀ entry ∈ batch, ∃ clause,
        parseWith (table.knownWith batch) entry.1 entry.2 = .ok clause ∧
          next.get? entry.1 = some clause) ∧
      ∀ name ∉ batch.map Prod.fst, next.get? name = table.get? name := by
  have distinctOthers : (others.map Prod.fst).Nodup := (same.map Prod.fst).nodup_iff.1 distinct
  refine ⟨⟨?_, ?_⟩, fun next defined => ⟨defineAll_of_perm distinct same defined, ?_, ?_⟩⟩
  · rintro ⟨next, defined⟩
    exact ⟨next, defineAll_of_perm distinct same defined⟩
  · rintro ⟨next, defined⟩
    exact ⟨next, defineAll_of_perm distinctOthers same.symm defined⟩
  · rintro ⟨name, text⟩ member
    obtain ⟨before, after, split⟩ := List.append_of_mem member
    refine holdsLast_defineAll defined before name text after split fun again => ?_
    rw [split, List.map_append, List.nodup_append, List.map_cons, List.nodup_cons] at distinct
    exact distinct.2.1.1 again
  · exact fun name => get?_defineAll_of_notMem defined

/-- Two macros that use each other, and a third that takes the place of one they use. -/
def triangle : List (String × String) := [("A", "B + M"), ("B", "A?K"), ("M", "K > 1")]

/-- The triangle may be defined from either end. -/
theorem defineAll_perm_triangle :
    ∃ next, defineAll (NameMap.ofList [("M", ⟨[.bare "K"]⟩)]) triangle = .ok next ∧
      defineAll (NameMap.ofList [("M", ⟨[.bare "K"]⟩)]) triangle.reverse = .ok next ∧
      next.get? "A" = some ⟨[.macroName "B", .macroName "M", .connective .and]⟩ := by
  obtain ⟨next, defined⟩ : ∃ next,
      defineAll (NameMap.ofList [("M", ⟨[.bare "K"]⟩)]) triangle = .ok next := by
    refine Except.isOk_iff.1 ?_
    decide +kernel
  obtain ⟨backwards, each, _⟩ := (defineAll_perm (NameMap.ofList [("M", ⟨[.bare "K"]⟩)])
    (by decide) (List.reverse_perm triangle).symm).2 next defined
  obtain ⟨clause, parsed, found⟩ := each ("A", "B + M") (by decide)
  have same : Except.ok clause =
      (.ok ⟨[.macroName "B", .macroName "M", .connective .and]⟩ : Except Error Clause) := by
    rw [← parsed]
    decide +kernel
  cases same
  exact ⟨next, defined, backwards, found⟩

end DefineAll

end MacroTable

end Randomizer
