/-!
Finite maps from names, held in name order. The order is by code point and each name occurs once,
so two maps with the same bindings are equal.
-/

universe u

namespace Randomizer

structure NameMap (α : Type u) where
  entries : List (String × α)
  ascending : (entries.map Prod.fst).Pairwise (· < ·)

namespace NameMap

variable {α : Type u}

def empty : NameMap α := ⟨[], List.Pairwise.nil⟩

instance : EmptyCollection (NameMap α) := ⟨empty⟩

instance : Inhabited (NameMap α) := ⟨empty⟩

def keys (map : NameMap α) : List String := map.entries.map Prod.fst

def values (map : NameMap α) : List α := map.entries.map Prod.snd

def size (map : NameMap α) : Nat := map.entries.length

def get? (map : NameMap α) (name : String) : Option α := map.entries.lookup name

def contains (map : NameMap α) (name : String) : Bool := (map.get? name).isSome

/-- A binding put where it keeps the order, in place of an older one of the same name. -/
def insertEntry (name : String) (value : α) : List (String × α) → List (String × α)
  | [] => [(name, value)]
  | entry :: rest =>
    if name < entry.1 then (name, value) :: entry :: rest
    else if entry.1 < name then entry :: insertEntry name value rest
    else (name, value) :: rest

theorem mem_keys_insertEntry {name other : String} {value : α} {entries : List (String × α)}
    (member : other ∈ (insertEntry name value entries).map Prod.fst) :
    other = name ∨ other ∈ entries.map Prod.fst := by
  induction entries with
  | nil => simpa [insertEntry] using member
  | cons entry rest ih =>
      unfold insertEntry at member
      split at member
      · simpa using member
      · split at member
        · rw [List.map_cons, List.mem_cons] at member ⊢
          rcases member with here | later
          · exact .inr (.inl here)
          · exact (ih later).imp id .inr
        · rw [List.map_cons, List.mem_cons] at member ⊢
          exact member.imp id .inr

theorem insertEntry_ascending {name : String} {value : α} {entries : List (String × α)}
    (ascending : (entries.map Prod.fst).Pairwise (· < ·)) :
    ((insertEntry name value entries).map Prod.fst).Pairwise (· < ·) := by
  induction entries with
  | nil => simp [insertEntry]
  | cons entry rest ih =>
      rw [List.map_cons, List.pairwise_cons] at ascending
      unfold insertEntry
      split
      · next before =>
        simp only [List.map_cons, List.pairwise_cons, List.mem_cons]
        refine ⟨fun other member => ?_, ascending⟩
        rcases member with rfl | later
        · exact before
        · exact String.lt_trans before (ascending.1 other later)
      · next notBefore =>
        split
        · next after =>
          rw [List.map_cons, List.pairwise_cons]
          refine ⟨fun other member => ?_, ih ascending.2⟩
          rcases mem_keys_insertEntry member with rfl | later
          · exact after
          · exact ascending.1 other later
        · next notAfter =>
          have same : name = entry.1 :=
            String.le_antisymm (String.not_lt.1 notAfter) (String.not_lt.1 notBefore)
          rw [List.map_cons, List.pairwise_cons]
          exact ⟨fun other member => same ▸ ascending.1 other member, ascending.2⟩

def insert (map : NameMap α) (name : String) (value : α) : NameMap α :=
  ⟨insertEntry name value map.entries, insertEntry_ascending map.ascending⟩

/-- Later bindings replace earlier ones of the same name. -/
def insertAll (map : NameMap α) (bindings : List (String × α)) : NameMap α :=
  bindings.foldl (fun built binding => built.insert binding.1 binding.2) map

def ofList (bindings : List (String × α)) : NameMap α := empty.insertAll bindings

theorem lookup_cons_eq_ite (name key : String) (value : α) (rest : List (String × α)) :
    List.lookup name ((key, value) :: rest) =
      if name = key then some value else List.lookup name rest := by
  rw [List.lookup_cons]
  by_cases same : name = key
  · simp [same]
  · rw [beq_false_of_ne same, if_neg same]

theorem lookup_insertEntry (name other : String) (value : α) (entries : List (String × α)) :
    (insertEntry name value entries).lookup other =
      if other = name then some value else entries.lookup other := by
  induction entries with
  | nil => simp [insertEntry, lookup_cons_eq_ite]
  | cons entry rest ih =>
      obtain ⟨key, held⟩ := entry
      unfold insertEntry
      split
      · simp only [lookup_cons_eq_ite]
      · next notBefore =>
        split
        · next after =>
          simp only [lookup_cons_eq_ite, ih]
          by_cases same : other = name
          · have apart : other ≠ key := fun equal =>
              String.lt_irrefl key (by rwa [← same, equal] at after)
            rw [if_neg apart, if_pos same, if_pos same]
          · rw [if_neg same, if_neg same]
        · next notAfter =>
          have equal : name = key :=
            String.le_antisymm (String.not_lt.1 notAfter) (String.not_lt.1 notBefore)
          subst equal
          simp only [lookup_cons_eq_ite]
          by_cases same : other = name
          · rw [if_pos same, if_pos same]
          · rw [if_neg same, if_neg same, if_neg same]

theorem get?_insert (map : NameMap α) (name other : String) (value : α) :
    (map.insert name value).get? other = if other = name then some value else map.get? other :=
  lookup_insertEntry name other value map.entries

theorem mem_of_get? {map : NameMap α} {name : String} {value : α}
    (found : map.get? name = some value) : (name, value) ∈ map.entries := by
  obtain ⟨before, after, split, _⟩ := List.lookup_eq_some_iff.1 found
  rw [split]
  exact List.mem_append_right _ List.mem_cons_self

theorem mem_keys_of_get? {map : NameMap α} {name : String} {value : α}
    (found : map.get? name = some value) : name ∈ map.keys :=
  List.mem_map_of_mem (mem_of_get? found)

theorem lookup_eq_none_of_below {entries : List (String × α)} {name : String}
    (below : ∀ other ∈ entries.map Prod.fst, name < other) : entries.lookup name = none := by
  induction entries with
  | nil => rfl
  | cons entry rest ih =>
      obtain ⟨key, held⟩ := entry
      have apart : name ≠ key := fun equal =>
        String.lt_irrefl key (by simpa [equal] using below key (by simp))
      rw [lookup_cons_eq_ite, if_neg apart]
      exact ih fun other member => below other (by simp_all)

theorem head_le_of_lookup {key : String} {value : α} {rest : List (String × α)}
    (ascending : ((key, value) :: rest).map Prod.fst |>.Pairwise (· < ·))
    {other : String} (found : (List.lookup other ((key, value) :: rest)).isSome) :
    key ≤ other := by
  rw [List.map_cons, List.pairwise_cons] at ascending
  refine String.not_lt.1 fun before => ?_
  have missing : List.lookup other ((key, value) :: rest) = none :=
    lookup_eq_none_of_below fun name member => by
      rw [List.map_cons, List.mem_cons] at member
      rcases member with rfl | later
      · exact before
      · exact String.lt_trans before (ascending.1 name later)
  simp [missing] at found

theorem entries_eq_of_lookup {first second : List (String × α)}
    (ascendingFirst : (first.map Prod.fst).Pairwise (· < ·))
    (ascendingSecond : (second.map Prod.fst).Pairwise (· < ·))
    (same : ∀ name, first.lookup name = second.lookup name) : first = second := by
  induction first generalizing second with
  | nil =>
      cases second with
      | nil => rfl
      | cons entry rest =>
          obtain ⟨key, value⟩ := entry
          simpa [lookup_cons_eq_ite] using same key
  | cons entry rest ih =>
      obtain ⟨key, value⟩ := entry
      cases second with
      | nil => simpa [lookup_cons_eq_ite] using same key
      | cons other others =>
          obtain ⟨otherKey, otherValue⟩ := other
          have keys : key = otherKey := by
            apply String.le_antisymm
            · exact head_le_of_lookup ascendingFirst (by
                rw [same, lookup_cons_eq_ite, if_pos rfl]; rfl)
            · exact head_le_of_lookup ascendingSecond (by
                rw [← same, lookup_cons_eq_ite, if_pos rfl]; rfl)
          subst keys
          have values : value = otherValue := by
            simpa [lookup_cons_eq_ite] using same key
          subst values
          rw [List.map_cons, List.pairwise_cons] at ascendingFirst ascendingSecond
          congr 1
          refine ih ascendingFirst.2 ascendingSecond.2 fun name => ?_
          by_cases here : name = key
          · subst here
            rw [lookup_eq_none_of_below ascendingFirst.1,
              lookup_eq_none_of_below ascendingSecond.1]
          · simpa [lookup_cons_eq_ite, here] using same name

/-- Maps with the same bindings are equal. -/
theorem ext_get? {first second : NameMap α}
    (same : ∀ name, first.get? name = second.get? name) : first = second := by
  have entries := entries_eq_of_lookup first.ascending second.ascending same
  cases first
  cases second
  cases entries
  rfl

end NameMap

end Randomizer
