import FlowScript.Value.Dictionary
import Mathlib.Data.List.Nodup
import Mathlib.Data.List.Perm.Subperm

/-!
# Dictionaries

What an insertion does to the keys, to the values and to what is found under each key. A
key that is there keeps its place, and a new one comes last, so no key comes in twice.
-/

set_option autoImplicit false

namespace FlowScript

namespace Dictionary

variable {α : Type}

/-! ## Lists of entries -/

theorem find?_isSome_iff {key : String} {entries : List (String × α)} :
    (find? key entries).isSome ↔ key ∈ entries.map (·.1) := by
  induction entries with
  | nil => simp [find?]
  | cons entry rest ih =>
      obtain ⟨other, value⟩ := entry
      by_cases same : other = key
      · simp [find?, same]
      · simp [find?, same, Ne.symm same, ih]

theorem find?_eq_some_iff {key : String} {value : α} {entries : List (String × α)}
    (once : (entries.map (·.1)).Nodup) :
    find? key entries = some value ↔ (key, value) ∈ entries := by
  induction entries with
  | nil => simp [find?]
  | cons entry rest ih =>
      obtain ⟨other, old⟩ := entry
      rw [List.map_cons, List.nodup_cons] at once
      by_cases same : other = key
      · subst same
        have absent : (other, value) ∉ rest :=
          fun member => once.1 (List.mem_map.mpr ⟨_, member, rfl⟩)
        simp [find?, absent, eq_comm]
      · simp [find?, same, Ne.symm same, ih once.2]

theorem find?_put (key other : String) (value : α) (entries : List (String × α)) :
    find? other (put key value entries) = if other = key then some value else find? other entries := by
  induction entries with
  | nil => simp [put, find?, eq_comm]
  | cons entry rest ih =>
      obtain ⟨first, old⟩ := entry
      by_cases same : first = key
      · subst same
        by_cases found : other = first
        · simp [put, find?, found]
        · simp [put, find?, found, Ne.symm found]
      · by_cases found : first = other
        · subst found
          simp [put, find?, same]
        · simp [put, find?, same, found, ih]

theorem find?_map {β : Type} (change : α → β) (key : String)
    (entries : List (String × α)) :
    find? key (entries.map fun entry => (entry.1, change entry.2)) =
      (find? key entries).map change := by
  induction entries with
  | nil => rfl
  | cons entry rest ih =>
      obtain ⟨other, value⟩ := entry
      simp only [List.map_cons, find?, ih]
      split <;> rfl

theorem put_of_find?_eq_none {key : String} {entries : List (String × α)} (value : α)
    (missing : find? key entries = none) : put key value entries = entries ++ [(key, value)] := by
  induction entries with
  | nil => rfl
  | cons entry rest ih =>
      obtain ⟨other, old⟩ := entry
      simp only [find?] at missing
      split at missing
      · cases missing
      · next differs => simp only [put, if_neg differs, ih missing, List.cons_append]

theorem put_of_find?_eq_some {key : String} {value : α} {entries : List (String × α)}
    (found : find? key entries = some value) : put key value entries = entries := by
  induction entries with
  | nil => cases found
  | cons entry rest ih =>
      obtain ⟨other, old⟩ := entry
      simp only [find?] at found
      split at found
      · next same =>
          cases found
          simp only [put, if_pos same]
      · next differs => simp only [put, if_neg differs, ih found]

theorem put_keys_of_find?_isSome {key : String} {value : α} {entries : List (String × α)}
    (present : (find? key entries).isSome) :
    (put key value entries).map (·.1) = entries.map (·.1) := by
  induction entries with
  | nil => cases present
  | cons entry rest ih =>
      obtain ⟨other, old⟩ := entry
      simp only [find?] at present
      simp only [put]
      split
      · rfl
      · next differs =>
          rw [if_neg differs] at present
          simp only [List.map_cons, ih present]

/-! ## Keys -/

theorem get?_insert (dictionary : Dictionary α) (key other : String) (value : α) :
    (dictionary.insert key value).get? other =
      if other = key then some value else dictionary.get? other :=
  find?_put key other value dictionary.entries

theorem keys_insert_of_contains {dictionary : Dictionary α} {key : String} {value : α}
    (present : dictionary.contains key) :
    (dictionary.insert key value).keys = dictionary.keys :=
  put_keys_of_find?_isSome present

/-- Insertion never brings a key in twice. -/
theorem nodup_keys_insert {dictionary : Dictionary α} (once : dictionary.keys.Nodup)
    (key : String) (value : α) : (dictionary.insert key value).keys.Nodup := by
  cases found : dictionary.get? key with
  | some old =>
      rw [keys_insert_of_contains (Option.isSome_iff_exists.mpr ⟨old, found⟩)]
      exact once
  | none =>
      have absent : key ∉ dictionary.keys := fun member => by
        have present := find?_isSome_iff.mpr member
        simp [show find? key dictionary.entries = none from found] at present
      simp only [insert, keys, put_of_find?_eq_none value found, List.map_append]
      exact List.concat_eq_append ▸ once.concat absent

theorem insert_of_get?_eq_some {dictionary : Dictionary α} {key : String} {value : α}
    (found : dictionary.get? key = some value) : dictionary.insert key value = dictionary := by
  simp only [insert, put_of_find?_eq_some found]

theorem ofList_of_nodup {entries : List (String × α)}
    (once : (entries.map (·.1)).Nodup) : ofList entries = ⟨entries⟩ := by
  suffices appended : ∀ (rest : List (String × α)) (done : Dictionary α),
      (done.keys ++ rest.map (·.1)).Nodup →
      rest.foldl (fun dictionary entry => dictionary.insert entry.1 entry.2) done =
        ⟨done.entries ++ rest⟩ from
    appended entries .empty once
  intro rest
  induction rest with
  | nil =>
      intro done _
      simp
  | cons entry rest ih =>
      intro done distinct
      have missing : find? entry.1 done.entries = none := by
        rw [← Option.not_isSome_iff_eq_none, find?_isSome_iff]
        intro present
        exact (List.disjoint_of_nodup_append distinct) present List.mem_cons_self
      have inserted : done.insert entry.1 entry.2 = ⟨done.entries ++ [entry]⟩ := by
        rw [insert, put_of_find?_eq_none entry.2 missing]
      rw [List.foldl_cons, inserted, ih]
      · simp
      · simpa [keys] using distinct

/-! ## Values -/

def values (dictionary : Dictionary α) : List α := dictionary.entries.map (·.2)

theorem put_values_subperm (key : String) (value : α) (entries : List (String × α)) :
    List.Subperm ((put key value entries).map (·.2)) (value :: entries.map (·.2)) := by
  induction entries with
  | nil => exact List.Subperm.refl _
  | cons entry rest ih =>
      obtain ⟨other, old⟩ := entry
      simp only [put]
      split
      · exact (List.Sublist.cons_cons value (List.sublist_cons_self old _)).subperm
      · simp only [List.map_cons]
        exact ((List.subperm_cons old).mpr ih).trans (List.Perm.swap value old _).subperm

/-- An insertion drops a value at most, and adds only the inserted one. -/
theorem insert_values_subperm (dictionary : Dictionary α) (key : String) (value : α) :
    List.Subperm (dictionary.insert key value).values (value :: dictionary.values) :=
  put_values_subperm key value dictionary.entries

theorem insert_values_of_not_contains {dictionary : Dictionary α} {key : String} (value : α)
    (missing : dictionary.contains key = false) :
    (dictionary.insert key value).values = dictionary.values ++ [value] := by
  have absent : find? key dictionary.entries = none := by
    simpa [contains, get?] using missing
  simp only [insert, values, put_of_find?_eq_none value absent, List.map_append, List.map_cons,
    List.map_nil]

theorem insert_all {good : α → Prop} {entries : Dictionary α} {key : String} {value : α}
    (all : ∀ entry ∈ entries.values, good entry) (valueGood : good value) :
    ∀ entry ∈ (entries.insert key value).values, good entry := by
  intro entry member
  rcases List.mem_cons.mp ((entries.insert_values_subperm key value).subset member) with
    new | old
  · subst new
    exact valueGood
  · exact all entry old

theorem find?_mem_values {key : String} {value : α} {entries : List (String × α)}
    (found : find? key entries = some value) : value ∈ entries.map (·.2) := by
  induction entries with
  | nil => cases found
  | cons entry rest ih =>
      obtain ⟨other, old⟩ := entry
      simp only [find?] at found
      split at found
      · cases found
        exact List.mem_cons_self
      · exact List.mem_cons_of_mem _ (ih found)

theorem get?_mem_values {dictionary : Dictionary α} {key : String} {value : α}
    (found : dictionary.get? key = some value) : value ∈ dictionary.values :=
  find?_mem_values found

/-- Keys that come again take the place of values, so none appears twice. -/
theorem ofList_values_subperm (entries : List (String × α)) :
    List.Subperm (ofList entries).values (entries.map (·.2)) := by
  suffices grown : ∀ (rest : List (String × α)) (done : Dictionary α),
      List.Subperm (rest.foldl (fun dictionary entry => dictionary.insert entry.1 entry.2)
        done).values (done.values ++ rest.map (·.2)) from by
    simpa [ofList, values, empty] using grown entries empty
  intro rest
  induction rest with
  | nil =>
      intro done
      simpa using List.Subperm.refl done.values
  | cons entry rest ih =>
      intro done
      refine (ih (done.insert entry.1 entry.2)).trans ?_
      have moved : List.Subperm ((done.insert entry.1 entry.2).values ++ rest.map (·.2))
          ((entry.2 :: done.values) ++ rest.map (·.2)) :=
        (List.subperm_append_right _).mpr (insert_values_subperm done entry.1 entry.2)
      exact moved.trans (List.perm_middle.symm).subperm

end Dictionary

end FlowScript
