import Mathlib.Logic.ExistsUnique
import Randomizer.NameMap
import Randomizer.Term

namespace Randomizer

structure Term where
  id : TermId
  name : String
  deriving DecidableEq, Repr

/-- The terms in the order of their ids, and the ids of the names. -/
structure TermRegister where
  terms : List Term
  ids : NameMap TermId

namespace TermRegister

def empty : TermRegister := ⟨[], ∅⟩

/-- The id of a name. A name that is new gets the next one. -/
def getOrAdd (register : TermRegister) (name : String) : TermId × TermRegister :=
  match register.ids.get? name with
  | some id => (id, register)
  | none =>
    let id : TermId := ⟨register.terms.length⟩
    (id, ⟨register.terms ++ [⟨id, name⟩], register.ids.insert name id⟩)

def addAll (register : TermRegister) (names : List String) : TermRegister :=
  names.foldl (fun built name => (built.getOrAdd name).2) register

def idOf? (register : TermRegister) (name : String) : Option TermId := register.ids.get? name

def byId? (register : TermRegister) (id : TermId) : Option Term := register.terms[id.index]?

/-- The term at the place that the id of a name gives. -/
def get? (register : TermRegister) (name : String) : Option Term :=
  (register.ids.get? name).bind register.byId?

variable {register : TermRegister}

/-- Each term stands at its id, and the ids on the side are those of the terms. -/
structure Agrees (register : TermRegister) : Prop where
  places : ∀ (index : Nat) (term : Term), register.terms[index]? = some term → term.id = ⟨index⟩
  idOf? : ∀ name id, register.idOf? name = some id ↔ (⟨id, name⟩ : Term) ∈ register.terms

/-- The empty register's two structures agree. -/
theorem agrees_empty : empty.Agrees where
  places := nofun
  idOf? := fun _ _ => iff_of_false nofun nofun

/-- The structures of a register still agree with one name more. -/
theorem Agrees.getOrAdd (agrees : register.Agrees) (name : String) :
    (register.getOrAdd name).2.Agrees := by
  unfold TermRegister.getOrAdd
  cases known : register.ids.get? name with
  | some id => exact agrees
  | none =>
      constructor
      · intro index term found
        dsimp only at found
        rw [List.getElem?_append] at found
        split at found
        · exact agrees.places index term found
        · obtain ⟨within, rfl⟩ := List.getElem?_eq_some_iff.1 found
          rw [List.length_singleton] at within
          rw [List.getElem_singleton, TermId.mk.injEq]
          omega
      · intro other id
        rw [TermRegister.idOf?, NameMap.get?_insert, List.mem_append, List.mem_singleton,
          Term.mk.injEq, ← agrees.idOf?]
        by_cases same : other = name
        · subst same
          simp [TermRegister.idOf?, known, eq_comm]
        · simp [same, TermRegister.idOf?]

/-- The structures of a register still agree with several names more. -/
theorem Agrees.addAll (agrees : register.Agrees) (names : List String) :
    (register.addAll names).Agrees := by
  induction names generalizing register with
  | nil => exact agrees
  | cons name rest ih => exact ih (agrees.getOrAdd name)

/-- Names that are all new go to the end one by one. -/
theorem Agrees.map_name_addAll (agrees : register.Agrees) {names : List String}
    (distinct : (register.terms.map Term.name ++ names).Nodup) :
    (register.addAll names).terms.map Term.name = register.terms.map Term.name ++ names := by
  induction names generalizing register with
  | nil => simp [TermRegister.addAll]
  | cons name rest ih =>
      have absent : register.ids.get? name = none := by
        apply Option.eq_none_iff_forall_ne_some.2
        intro id known
        have member := List.mem_map_of_mem (f := Term.name) ((agrees.idOf? name id).1 known)
        exact (List.nodup_append.1 distinct).2.2 name member name List.mem_cons_self rfl
      have added : (register.getOrAdd name).2.terms.map Term.name =
          register.terms.map Term.name ++ [name] := by
        simp [TermRegister.getOrAdd, absent]
      have step := ih (agrees.getOrAdd name) (by rwa [added, List.append_assoc])
      rw [added, List.append_assoc] at step
      exact step

/-- The names and the ids below the number of terms stand for each other, whichever way a term is
looked up, and the terms come in the order of their ids. -/
structure OneToOne (register : TermRegister) : Prop where
  ids : register.terms.map Term.id = (List.range register.terms.length).map TermId.mk
  names : (register.terms.map Term.name).Nodup
  idOf? : ∀ index < register.terms.length, ∃! name, register.idOf? name = some ⟨index⟩
  within : ∀ name id, register.idOf? name = some id → id.index < register.terms.length
  byId? : ∀ id term, register.byId? id = some term ↔
    term.id = id ∧ register.idOf? term.name = some id
  get? : ∀ name term, register.get? name = some term ↔
    term.name = name ∧ register.idOf? name = some term.id

namespace Agrees

variable (agrees : register.Agrees)

include agrees

/-- An identity is that of a term just if the term's name leads to it. -/
theorem byId?_eq_some_iff {id : TermId} {term : Term} :
    register.byId? id = some term ↔ term.id = id ∧ register.idOf? term.name = some id := by
  constructor
  · intro found
    obtain rfl : term.id = id := agrees.places id.index term found
    exact ⟨rfl, (agrees.idOf? _ _).2 (List.mem_of_getElem? found)⟩
  · rintro ⟨rfl, known⟩
    obtain ⟨index, found⟩ := List.getElem?_of_mem ((agrees.idOf? _ _).1 known)
    have placed := agrees.places index _ found
    rwa [TermRegister.byId?, placed]

/-- A name is that of a term just if the name leads to the term's identity. -/
theorem get?_eq_some_iff {name : String} {term : Term} :
    register.get? name = some term ↔ term.name = name ∧ register.idOf? name = some term.id := by
  rw [TermRegister.get?, Option.bind_eq_some_iff]
  constructor
  · rintro ⟨id, known, found⟩
    obtain ⟨rfl, same⟩ := agrees.byId?_eq_some_iff.1 found
    have one := (agrees.idOf? _ _).1 known
    obtain ⟨index, there⟩ := List.getElem?_of_mem one
    have placed := agrees.places index _ there
    rw [TermRegister.byId?, placed, there] at found
    have named := congrArg Term.name (Option.some.inj found)
    exact ⟨named.symm, known⟩
  · rintro ⟨rfl, known⟩
    exact ⟨term.id, known, agrees.byId?_eq_some_iff.2 ⟨rfl, known⟩⟩

/-- The identities of the terms count up from zero. -/
theorem map_id : register.terms.map Term.id = (List.range register.terms.length).map TermId.mk := by
  apply List.ext_getElem (by simp)
  intro index inside _
  have within : index < register.terms.length := by simpa using inside
  rw [List.getElem_map, List.getElem_map, List.getElem_range]
  exact agrees.places index _ (List.getElem?_eq_getElem within)

/-- No two terms have one name. -/
theorem nodup_names : (register.terms.map Term.name).Nodup := by
  rw [List.Nodup, List.pairwise_map, List.pairwise_iff_getElem]
  intro first second left right before same
  have atFirst : register.byId? ⟨first⟩ = some register.terms[first] :=
    List.getElem?_eq_getElem left
  have atSecond : register.byId? ⟨second⟩ = some register.terms[second] :=
    List.getElem?_eq_getElem right
  have knownFirst := agrees.byId?_eq_some_iff.1 atFirst
  have knownSecond := agrees.byId?_eq_some_iff.1 atSecond
  rw [same, knownSecond.2] at knownFirst
  have equal := congrArg TermId.index (Option.some.inj knownFirst.2)
  exact Nat.ne_of_lt before equal.symm

/-- Names and identities of a register stand for each other. -/
theorem oneToOne : register.OneToOne where
  ids := agrees.map_id
  names := agrees.nodup_names
  idOf? := by
    intro index inside
    have found : register.byId? ⟨index⟩ = some register.terms[index] :=
      List.getElem?_eq_getElem inside
    obtain ⟨_, known⟩ := agrees.byId?_eq_some_iff.1 found
    refine ⟨register.terms[index].name, known, fun name knownName => ?_⟩
    have other := agrees.byId?_eq_some_iff.2 (⟨rfl, knownName⟩ :
      (⟨⟨index⟩, name⟩ : Term).id = ⟨index⟩ ∧ register.idOf? name = some ⟨index⟩)
    rw [found] at other
    rw [Option.some.inj other]
  within := by
    intro name id known
    have found := agrees.byId?_eq_some_iff.2 (⟨rfl, known⟩ :
      (⟨id, name⟩ : Term).id = id ∧ register.idOf? name = some id)
    exact (List.getElem?_eq_some_iff.1 found).1
  byId? := fun _ _ => agrees.byId?_eq_some_iff
  get? := fun _ _ => agrees.get?_eq_some_iff

end Agrees

end TermRegister

namespace TermTable

variable {table later : TermTable}

/-- The register that the names of a table lead to, registered in order. -/
def register (table : TermTable) : TermRegister := TermRegister.empty.addAll table.names

/-- The register of a table has structures that agree. -/
theorem agrees_register (table : TermTable) : table.register.Agrees :=
  TermRegister.agrees_empty.addAll table.names

/-- The register of a table has the names of the table. -/
theorem names_register (table : TermTable) :
    table.register.terms.map Term.name = table.names :=
  TermRegister.agrees_empty.map_name_addAll table.nodup

/-- A table names an identity as its register does. -/
theorem nameOf?_register (table : TermTable) (id : TermId) :
    table.nameOf? id = (table.register.byId? id).map Term.name := by
  rw [nameOf?, TermRegister.byId?, ← List.getElem?_map, names_register]

/-- A table finds a name as its register does. -/
theorem idOf?_register (table : TermTable) (name : String) :
    table.idOf? name = table.register.idOf? name := by
  ext id
  rw [← nameOf?_eq_some_iff, nameOf?_register, Option.map_eq_some_iff]
  simp only [table.agrees_register.byId?_eq_some_iff]
  constructor
  · rintro ⟨term, ⟨_, known⟩, rfl⟩
    exact known
  · exact fun known => ⟨⟨id, name⟩, ⟨rfl, known⟩, rfl⟩

/-- A name that is known has the identity of its place. -/
theorem idOf?_eq_some_idxOf {name : String} (known : name ∈ table.names) :
    table.idOf? name = some ⟨table.names.idxOf name⟩ := by
  rw [← nameOf?_eq_some_iff, nameOf?, List.getElem?_eq_getElem (List.idxOf_lt_length_of_mem known),
    List.getElem_idxOf]

/-- Registering a name gives the id that the table gives, and leads to the same register. -/
theorem getOrAdd_register (table : TermTable) (name : String) :
    table.register.getOrAdd name = (table.idAfterAdd name, (table.add name).register) := by
  by_cases known : name ∈ table.names
  · have found : table.register.ids.get? name = some ⟨table.names.idxOf name⟩ :=
      (table.idOf?_register name).symm.trans (idOf?_eq_some_idxOf known)
    rw [TermRegister.getOrAdd, found, add, dif_pos known, idAfterAdd]
  · have absent : table.register.ids.get? name = none :=
      (table.idOf?_register name).symm.trans (by simpa [idOf?] using known)
    have size : table.register.terms.length = table.names.length := by
      rw [← table.names_register, List.length_map]
    have added : (table.add name).register = (table.register.getOrAdd name).2 := by
      rw [add, dif_neg known, register, TermRegister.addAll, List.foldl_append]
      rfl
    rw [added, TermRegister.getOrAdd, absent]
    simp only [idAfterAdd, size, List.idxOf_eq_length known]

/-- The names of a table and its ids stand for each other, looked up in the list of names or in the
register. -/
structure OneToOne (table : TermTable) : Prop where
  register : table.register.OneToOne
  names : table.names = table.register.terms.map Term.name
  idOf? : ∀ name, table.idOf? name = table.register.idOf? name
  nameOf? : ∀ id, table.nameOf? id = (table.register.byId? id).map Term.name

/-- Names and identities of a table stand for each other. -/
theorem oneToOne (table : TermTable) : table.OneToOne where
  register := table.agrees_register.oneToOne
  names := table.names_register.symm
  idOf? := table.idOf?_register
  nameOf? := table.nameOf?_register

/-- The later table is what registering names in the earlier one leads to: new terms at the end, and
every id as it was. -/
structure GrowsTo (table later : TermTable) : Prop where
  appends : ∃ added, later.names = table.names ++ added
  nameOf? : ∀ id name, table.nameOf? id = some name → later.nameOf? id = some name
  registers : ∃ names, later.register = table.register.addAll names

theorem GrowsTo.refl (table : TermTable) : table.GrowsTo table where
  appends := ⟨[], (List.append_nil _).symm⟩
  nameOf? := fun _ _ => id
  registers := ⟨[], rfl⟩

theorem GrowsTo.trans {last : TermTable} (first : table.GrowsTo later)
    (second : later.GrowsTo last) : table.GrowsTo last where
  appends := by
    obtain ⟨added, appended⟩ := first.appends
    obtain ⟨more, appendedMore⟩ := second.appends
    exact ⟨added ++ more, by rw [appendedMore, appended, List.append_assoc]⟩
  nameOf? := fun id name found => second.nameOf? id name (first.nameOf? id name found)
  registers := by
    obtain ⟨names, registered⟩ := first.registers
    obtain ⟨more, registeredMore⟩ := second.registers
    exact ⟨names ++ more, by
      rw [registeredMore, registered, TermRegister.addAll, TermRegister.addAll,
        TermRegister.addAll, List.foldl_append]⟩

/-- A table grows by a name. -/
theorem growsTo_add (table : TermTable) (name : String) : table.GrowsTo (table.add name) where
  appends := by
    obtain ⟨added, appended⟩ := table.names_add name
    exact ⟨added, appended.symm⟩
  nameOf? := by
    obtain ⟨added, appended⟩ := table.names_add name
    intro id other found
    rw [TermTable.nameOf?] at found ⊢
    rw [← appended, List.getElem?_append_left (List.getElem?_eq_some_iff.1 found).1, found]
  registers := ⟨[name], by
    have registered := table.getOrAdd_register name
    change _ = (table.register.getOrAdd name).2
    rw [registered]⟩

/-- A name that has an identity keeps it. -/
theorem idOf?_add_of_some {name : String} {id : TermId} (found : table.idOf? name = some id)
    (added : String) : (table.add added).idOf? name = some id :=
  nameOf?_eq_some_iff.1 ((growsTo_add table added).nameOf? id name (nameOf?_eq_some_iff.2 found))

end TermTable

end Randomizer
