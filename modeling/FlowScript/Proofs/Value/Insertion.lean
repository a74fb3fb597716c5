import FlowScript.Proofs.Value.Dictionary
import Mathlib.Data.List.Induction

/-!
# Insertions one after another

A dictionary records the insertions that made it: its keys stand in the order in which each
of them was inserted first, and under each key is the value that was inserted last. Whatever
has each of its keys once records its own entries, so this holds on from any such dictionary.
-/

set_option autoImplicit false

namespace FlowScript

theorem eraseDups_concat {α : Type} [BEq α] [LawfulBEq α] [DecidableEq α] (items : List α)
    (item : α) :
    (items ++ [item]).eraseDups =
      if item ∈ items then items.eraseDups else items.eraseDups ++ [item] := by
  rw [List.eraseDups_append, List.cons_removeAll, List.nil_removeAll]
  by_cases member : item ∈ items
  · simp [member, List.eraseDups_nil]
  · simp [member, List.eraseDups_cons, List.eraseDups_nil]

theorem nodup_eraseDups {α : Type} [BEq α] [LawfulBEq α] [DecidableEq α] (items : List α) :
    items.eraseDups.Nodup := by
  induction items using List.reverseRecOn with
  | nil => exact List.nodup_nil
  | append_singleton items item ih =>
      rw [eraseDups_concat]
      split
      · exact ih
      · next absent =>
          rw [← List.concat_eq_append]
          exact ih.concat fun member => absent (List.mem_eraseDups.mp member)

namespace Dictionary

variable {α : Type}

/-- Inserts the values of some entries in turn. -/
def insertAll (dictionary : Dictionary α) (insertions : List (String × α)) : Dictionary α :=
  insertions.foldl (fun dictionary entry => dictionary.insert entry.1 entry.2) dictionary

/-- The insertions, in this order, make the dictionary of an empty one. -/
structure Records (dictionary : Dictionary α) (insertions : List (String × α)) : Prop where
  keys : dictionary.keys = (insertions.map (·.1)).eraseDups
  get? (key : String) : dictionary.get? key = insertions.reverse.lookup key

theorem keys_insert (dictionary : Dictionary α) (key : String) (value : α) :
    (dictionary.insert key value).keys =
      if key ∈ dictionary.keys then dictionary.keys else dictionary.keys ++ [key] := by
  split
  · next present => exact keys_insert_of_contains (find?_isSome_iff.mpr present)
  · next absent =>
      have missing : find? key dictionary.entries = none := by
        rw [← Option.not_isSome_iff_eq_none, find?_isSome_iff]
        exact absent
      simp only [insert, keys, put_of_find?_eq_none value missing, List.map_append, List.map_cons,
        List.map_nil]

theorem ofList_append_singleton (entries : List (String × α)) (key : String) (value : α) :
    ofList (entries ++ [(key, value)]) = (ofList entries).insert key value := by
  simp only [ofList, List.foldl_append, List.foldl_cons, List.foldl_nil]

namespace Records

variable {dictionary : Dictionary α} {insertions : List (String × α)}

theorem nodup (records : dictionary.Records insertions) : dictionary.keys.Nodup := by
  rw [records.keys]
  exact nodup_eraseDups _

theorem empty : (Dictionary.empty : Dictionary α).Records [] := ⟨rfl, fun _ => rfl⟩

theorem insert (records : dictionary.Records insertions) (key : String) (value : α) :
    (dictionary.insert key value).Records (insertions ++ [(key, value)]) := by
  constructor
  · rw [keys_insert, records.keys, List.map_append, List.map_cons, List.map_nil, eraseDups_concat]
    simp only [List.mem_eraseDups]
  · intro other
    rw [get?_insert, records.get?, List.reverse_concat, List.lookup_cons]
    by_cases same : other = key
    · simp [same]
    · simp [same, beq_eq_false_iff_ne.mpr same]

theorem insertAll (records : dictionary.Records insertions) (more : List (String × α)) :
    (dictionary.insertAll more).Records (insertions ++ more) := by
  induction more generalizing dictionary insertions with
  | nil => rwa [List.append_nil]
  | cons entry rest ih =>
      rw [List.append_cons]
      exact ih (records.insert entry.1 entry.2)

/-- A dictionary whose keys are distinct is what the insertion of its entries makes. -/
theorem of_nodup (once : dictionary.keys.Nodup) : dictionary.Records dictionary.entries := by
  have records : (ofList dictionary.entries).Records dictionary.entries :=
    Records.empty.insertAll dictionary.entries
  rwa [ofList_of_nodup once] at records

end Records

/-! ## Entries of other keys -/

theorem getElem?_put {key other : String} (differs : other ≠ key) (value held : α)
    (entries : List (String × α)) (index : Nat) :
    (put key value entries)[index]? = some (other, held) ↔
      entries[index]? = some (other, held) := by
  induction entries generalizing index with
  | nil => cases index <;> simp [put, Ne.symm differs]
  | cons entry rest ih =>
      obtain ⟨first, old⟩ := entry
      simp only [put]
      split
      · next same =>
          subst same
          cases index <;> simp [Ne.symm differs]
      · cases index with
        | zero => rfl
        | succ index => exact ih index

/-- An insertion leaves the entries of all other keys as they are, and where they are. -/
theorem getElem?_entries_insert {key other : String} (differs : other ≠ key)
    (dictionary : Dictionary α) (value held : α) (index : Nat) :
    (dictionary.insert key value).entries[index]? = some (other, held) ↔
      dictionary.entries[index]? = some (other, held) :=
  getElem?_put differs value held dictionary.entries index

end Dictionary

end FlowScript
