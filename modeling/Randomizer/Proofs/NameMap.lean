import Mathlib.Data.List.Nodup
import Randomizer.NameMap

/-!
Finite maps from names, seen through their entries: a name is bound to the value that stands beside
it, and a map made of ascending bindings holds just these.
-/

universe u v

namespace Randomizer.NameMap

variable {α : Type u} {β : Type v}

/-- A map is empty if its size is zero. -/
theorem eq_empty_iff {map : NameMap α} : map = ∅ ↔ map.size = 0 := by
  constructor
  · rintro rfl
    rfl
  · intro none
    obtain ⟨entries, ascending⟩ := map
    obtain rfl := List.length_eq_zero_iff.1 none
    rfl

theorem not_contains_empty (name : String) : ¬ (∅ : NameMap α).contains name :=
  Bool.false_ne_true

/-- A binding that is listed is found. -/
theorem get?_of_mem {map : NameMap α} {name : String} {value : α}
    (member : (name, value) ∈ map.entries) : map.get? name = some value := by
  obtain ⟨before, after, split⟩ := List.append_of_mem member
  refine List.lookup_eq_some_iff.2 ⟨before, after, split, fun entry earlier => ?_⟩
  have ascending := map.ascending
  rw [split, List.map_append, List.pairwise_append] at ascending
  have below : entry.1 < name :=
    ascending.2.2 entry.1 (List.mem_map_of_mem earlier) name (by simp)
  apply bne_iff_ne.2
  intro same
  rw [same] at below
  exact String.lt_irrefl entry.1 below

/-- The bindings that are listed are those that are found. -/
theorem mem_entries_iff {map : NameMap α} {name : String} {value : α} :
    (name, value) ∈ map.entries ↔ map.get? name = some value :=
  ⟨get?_of_mem, mem_of_get?⟩

/-- A map contains the names with a value. -/
theorem contains_iff {map : NameMap α} {name : String} :
    map.contains name ↔ ∃ value, map.get? name = some value := by
  rw [contains, Option.isSome_iff_exists]

/-- After an insertion the map contains one name more. -/
theorem contains_insert (map : NameMap α) (name other : String) (value : α) :
    (map.insert name value).contains other = (other == name || map.contains other) := by
  rw [contains, get?_insert, contains]
  by_cases same : other = name
  · simp [same]
  · simp [same]

/-- The keys are the names with a value. -/
theorem mem_keys_iff {map : NameMap α} {name : String} :
    name ∈ map.keys ↔ ∃ value, map.get? name = some value := by
  simp only [keys, List.mem_map, Prod.exists, exists_and_right, exists_eq_right, mem_entries_iff]

/-- A name without a value is no key. -/
theorem get?_eq_none_iff {map : NameMap α} {name : String} :
    map.get? name = none ↔ name ∉ map.keys := by
  rw [mem_keys_iff, Option.eq_none_iff_forall_ne_some, not_exists]

/-- A map contains its keys. -/
theorem contains_iff_mem_keys {map : NameMap α} {name : String} :
    map.contains name ↔ name ∈ map.keys := by
  rw [contains_iff, mem_keys_iff]

/-- After several insertions the map contains the names that it did and those inserted. -/
theorem contains_insertAll (map : NameMap α) (bindings : List (String × α)) (name : String) :
    (map.insertAll bindings).contains name =
      ((bindings.map Prod.fst).contains name || map.contains name) := by
  induction bindings generalizing map with
  | nil => rfl
  | cons binding rest ih =>
      change ((map.insert binding.1 binding.2).insertAll rest).contains name = _
      rw [ih, contains_insert, List.map_cons, List.contains_cons, Bool.or_left_comm, Bool.or_assoc]

/-- A name that is not inserted keeps its value. -/
theorem get?_insertAll_of_notMem {map : NameMap α} {bindings : List (String × α)} {name : String}
    (fresh : name ∉ bindings.map Prod.fst) :
    (map.insertAll bindings).get? name = map.get? name := by
  induction bindings generalizing map with
  | nil => rfl
  | cons binding rest ih =>
      rw [List.map_cons, List.mem_cons, not_or] at fresh
      change ((map.insert binding.1 binding.2).insertAll rest).get? name = _
      rw [ih fresh.2, get?_insert, if_neg fresh.1]

/-- Of several bindings of a name the last one counts. -/
theorem get?_insertAll_of_last {map : NameMap α} {before after : List (String × α)} {name : String}
    {value : α} (last : name ∉ after.map Prod.fst) :
    (map.insertAll (before ++ (name, value) :: after)).get? name = some value := by
  rw [insertAll, List.foldl_append, List.foldl_cons]
  change (((map.insertAll before).insert name value).insertAll after).get? name = _
  rw [get?_insertAll_of_notMem last, get?_insert, if_pos rfl]

/-- Two insertions under different names may change places. -/
theorem insert_comm {name other : String} (apart : name ≠ other) (map : NameMap α)
    (value held : α) :
    (map.insert name value).insert other held = (map.insert other held).insert name value := by
  refine ext_get? fun key => ?_
  simp only [get?_insert]
  by_cases isOther : key = other
  · subst isOther
    rw [if_pos rfl, if_neg (Ne.symm apart), if_pos rfl]
  · rw [if_neg isOther, if_neg isOther]

/-- Bindings of different names may be added in any order. -/
theorem insertAll_perm (map : NameMap α) {bindings others : List (String × α)}
    (same : bindings.Perm others) (distinct : (bindings.map Prod.fst).Nodup) :
    map.insertAll bindings = map.insertAll others := by
  refine same.foldl_eq' (fun first inFirst second inSecond built => ?_) map
  by_cases names : first.1 = second.1
  · obtain rfl := List.inj_on_of_nodup_map distinct inFirst inSecond names
    rfl
  · exact (insert_comm names built _ _)

/-- Every value of the map has the property. -/
def All (property : α → Prop) (map : NameMap α) : Prop :=
  ∀ name value, map.get? name = some value → property value

theorem all_empty {property : α → Prop} : (∅ : NameMap α).All property := by
  intro name value found
  cases found

/-- A weaker property holds of all values too. -/
theorem All.mono {property weaker : α → Prop} {map : NameMap α} (all : map.All property)
    (implies : ∀ value, property value → weaker value) : map.All weaker :=
  fun name value found => implies value (all name value found)

/-- A value with the property may be inserted. -/
theorem All.insert {property : α → Prop} {map : NameMap α} (all : map.All property)
    (name : String) {value : α} (ofValue : property value) :
    (map.insert name value).All property := by
  intro other found
  rw [get?_insert]
  split
  · rintro ⟨⟩
    exact ofValue
  · exact all other found

/-- Values with the property may be inserted one after another. -/
theorem All.insertAll {property : α → Prop} {map : NameMap α} (all : map.All property)
    {bindings : List (String × α)} (each : ∀ binding ∈ bindings, property binding.2) :
    (map.insertAll bindings).All property := by
  induction bindings generalizing map with
  | nil => exact all
  | cons binding rest ih =>
      exact ih (all.insert binding.1 (each binding (by simp)))
        fun other member => each other (by simp [member])

/-- A name after all others goes to the end. -/
theorem insertEntry_of_above {name : String} {value : α} {entries : List (String × α)}
    (above : ∀ entry ∈ entries, entry.1 < name) :
    insertEntry name value entries = entries ++ [(name, value)] := by
  induction entries with
  | nil => rfl
  | cons entry rest ih =>
      have first := above entry (by simp)
      rw [insertEntry, if_neg (String.lt_asymm first), if_pos first,
        ih fun other member => above other (by simp [member])]
      rfl

/-- Bindings in ascending order after all others are appended. -/
theorem entries_insertAll {map : NameMap α} {bindings : List (String × α)}
    (ascending : ((map.entries ++ bindings).map Prod.fst).Pairwise (· < ·)) :
    (map.insertAll bindings).entries = map.entries ++ bindings := by
  induction bindings generalizing map with
  | nil => simp [insertAll]
  | cons binding rest ih =>
      have inserted : (map.insert binding.1 binding.2).entries = map.entries ++ [binding] := by
        apply insertEntry_of_above
        intro entry member
        rw [List.map_append, List.pairwise_append] at ascending
        exact ascending.2.2 entry.1 (List.mem_map_of_mem member) binding.1 (by simp)
      have moved : (map.insert binding.1 binding.2).entries ++ rest =
          map.entries ++ binding :: rest := by
        rw [inserted, List.append_assoc]
        rfl
      rw [← moved] at ascending ⊢
      exact ih ascending

/-- A map made of ascending bindings holds just these. -/
theorem entries_ofList {bindings : List (String × α)}
    (ascending : (bindings.map Prod.fst).Pairwise (· < ·)) :
    (ofList bindings).entries = bindings := by
  have built : ((empty : NameMap α).insertAll bindings).entries = [] ++ bindings :=
    entries_insertAll ascending
  exact built

/-- A map is rebuilt from its bindings. -/
theorem ofList_entries (map : NameMap α) : ofList map.entries = map :=
  ext_get? fun name => by rw [get?, entries_ofList map.ascending, get?]

/-- The values of a map that know their names, bound to these again after a change. -/
theorem entries_ofList_values {map : NameMap α} {nameOf : α → String} (change : α → β)
    (named : ∀ name value, map.get? name = some value → nameOf value = name) :
    (ofList (map.values.map fun value => (nameOf value, change value))).entries =
      map.entries.map fun entry => (entry.1, change entry.2) := by
  have bindings : (map.values.map fun value => (nameOf value, change value)) =
      map.entries.map fun entry => (entry.1, change entry.2) := by
    rw [values, List.map_map]
    apply List.map_congr_left
    intro entry member
    have name := named entry.1 entry.2 (get?_of_mem member)
    simp only [Function.comp_apply, name]
  rw [bindings]
  apply entries_ofList
  rw [List.map_map]
  exact map.ascending

/-- Values that are listed under their own names have the keys of the map. -/
theorem keys_ofList_values {map : NameMap α} {nameOf : α → String} (change : α → β)
    (named : ∀ name value, map.get? name = some value → nameOf value = name) :
    (ofList (map.values.map fun value => (nameOf value, change value))).keys = map.keys := by
  rw [keys, entries_ofList_values change named, List.map_map]
  rfl

/-- A change of the values may come before a lookup or after it. -/
theorem lookup_map_snd (change : α → β) (entries : List (String × α)) (name : String) :
    (entries.map fun entry => (entry.1, change entry.2)).lookup name =
      (entries.lookup name).map change := by
  induction entries with
  | nil => rfl
  | cons entry rest ih =>
      rw [List.map_cons, lookup_cons_eq_ite, ih, lookup_cons_eq_ite]
      split <;> rfl

/-- Values that are listed under their own names are found changed. -/
theorem get?_ofList_values {map : NameMap α} {nameOf : α → String} (change : α → β)
    (named : ∀ name value, map.get? name = some value → nameOf value = name) (name : String) :
    (ofList (map.values.map fun value => (nameOf value, change value))).get? name =
      (map.get? name).map change := by
  rw [get?, entries_ofList_values change named, lookup_map_snd]
  rfl

end Randomizer.NameMap
