import FlowScript.Proofs.After
import FlowScript.Proofs.Storage.Operation
import FlowScript.Run.Call

/-!
# Paths through dictionaries

A path that ends at a dictionary goes through entries only: properties and functions
of a value are no dictionaries and lead to none. The cells on such a path are ranked
above the one it ends at, so writing that one or one inside it leaves the path as it is.
-/

set_option autoImplicit false

namespace FlowScript

open RunM

namespace Value

variable {store : Store}

/-- The name stands for an entry of the value, and not for a property or a function that
all values of its kind have. -/
structure HasEntry (store : Store) (value : Value) (name : String) (entry : Value) : Prop where
  noProperty : value.kind.properties.contains name = false
  noMember : value.kind.members.find? (·.name == name) = none
  found : (store.dictionary? value).bind (·.get? name) = some entry

theorem HasEntry.property {value entry : Value} {name : String}
    (has : value.HasEntry store name entry) :
    (value.property name).run.run store = (.ok entry, store) := by
  have read : (get : StoreExceptM Store).run.run store = (.ok store, store) := rfl
  unfold Value.property
  rw [has.noProperty, has.noMember, run_bind_eq, read]
  simp only [Bool.false_eq_true, if_false, has.found]
  rfl

theorem HasEntry.owner {value entry : Value} {name : String}
    (has : value.HasEntry store name entry) : ∃ kind address, value = .stored kind address := by
  obtain ⟨entries, atValue, -⟩ := Option.bind_eq_some_iff.mp has.found
  cases value with
  | stored kind address => exact ⟨kind, address, rfl⟩
  | _ => cases atValue

theorem HasEntry.part {kind : StoredKind} {owner part : Nat} {entry : Value} {name : String}
    (has : (Value.stored kind owner).HasEntry store name entry)
    (refers : entry.address? = some part) : part ∈ store.parts owner := by
  obtain ⟨entries, atValue, atKey⟩ := Option.bind_eq_some_iff.mp has.found
  exact Store.mem_parts (Store.dictionary?_eq_some atValue) (Dictionary.get?_mem_values atKey)
    refers

theorem newScalar_leaf (value : Scalar) :
    After (newScalar value) store fun result final => final.dictionary? result = none := by
  have found := store.cell?_push_new (.scalar value)
  change (store.push (.scalar value)).dictionary? (.stored value.kind store.size) = none
  simp only [Store.dictionary?, found]

/-- What stands behind a dot is an entry, or it is no dictionary. -/
theorem property_entry_or_leaf (value : Value) (name : String) :
    After (value.property name).run store fun outcome final => ∀ next, outcome = .ok next →
      value.HasEntry store name next ∧ final = store ∨ final.dictionary? next = none := by
  unfold property
  simp only [after_run_bind, after_run_get]
  split
  · simp only [after_run_lift, staticProperty, after_bind, after_get]
    split
    all_goals
      refine (newScalar_leaf _).imp fun result final leaf next same => ?_
      cases same
      exact .inr leaf
  · next noProperty =>
      split
      · rintro next ⟨⟩
        exact .inr rfl
      · next noMember =>
          split
          · next entry found =>
              rintro next ⟨⟩
              exact .inl ⟨⟨by simpa using noProperty, noMember, found⟩, rfl⟩
          · rintro next ⟨⟩

/-- A path leads from a value to another one, through entries only. -/
inductive Descends (store : Store) : Value → List Identifier → Value → Prop where
  | here {value : Value} : Descends store value [] value
  | entry {value next last : Value} {segment : Identifier} {rest : List Identifier} :
      value.HasEntry store segment.name next → Descends store next rest last →
      Descends store value (segment :: rest) last

namespace Descends

variable {value last : Value} {segments : List Identifier}

theorem snoc {entry : Value} {key : Identifier} (descends : value.Descends store segments last)
    (has : last.HasEntry store key.name entry) :
    value.Descends store (segments ++ [key]) entry := by
  induction descends with
  | here => exact .entry has .here
  | entry first _ ih => exact .entry first (ih has)

/-- A path that goes through entries only can be followed, which changes nothing. -/
theorem returns {machine : Machine} (descends : value.Descends machine.store segments last) :
    (followPath value segments).Returns machine last machine := by
  induction descends with
  | here => rfl
  | @entry value next last segment rest has _ ih =>
      have reads : (onStoreAt segment.span (value.property segment.name)).Returns machine next
          machine := by
        unfold RunM.Returns
        rw [run_onStoreAt, has.property]
      exact reads.bind ih

end Descends

theorem followPath_leaf {value last : Value} {segments : List Identifier} {machine final : Machine}
    (leaf : machine.store.dictionary? value = none)
    (returns : (followPath value segments).Returns machine last final) :
    final.store.dictionary? last = none := by
  induction segments generalizing value machine with
  | nil =>
      obtain ⟨rfl, rfl⟩ := returns.of_pure
      exact leaf
  | cons segment rest ih =>
      obtain ⟨next, _, reads, follows⟩ := RunM.Returns.steps returns
      obtain ⟨store, ran, rfl⟩ := reads.onStoreAt
      rcases (property_entry_or_leaf value segment.name).of_run ran next rfl with ⟨has, -⟩ | leaf'
      · exact absurd has.found (by simp [leaf])
      · exact ih leaf' follows

/-- A path to a dictionary goes through entries only. -/
theorem followPath_descends {value last : Value} {segments : List Identifier}
    {machine final : Machine} (returns : (followPath value segments).Returns machine last final)
    (shaped : (final.store.dictionary? last).isSome) :
    value.Descends machine.store segments last ∧ final = machine := by
  induction segments generalizing value machine with
  | nil =>
      obtain ⟨rfl, rfl⟩ := returns.of_pure
      exact ⟨.here, rfl⟩
  | cons segment rest ih =>
      obtain ⟨next, _, reads, follows⟩ := RunM.Returns.steps returns
      obtain ⟨store, ran, rfl⟩ := reads.onStoreAt
      rcases (property_entry_or_leaf value segment.name).of_run ran next rfl with ⟨has, rfl⟩ | leaf
      · obtain ⟨descends, rfl⟩ := ih follows
        exact ⟨.entry has descends, rfl⟩
      · exact absurd shaped (by simp [followPath_leaf leaf follows])

section

variable {rank : Nat → Nat} {address : Nat}

/-- Where a path ends at a cell, it comes from one. -/
theorem Descends.exists_address {value last : Value} {segments : List Identifier}
    (descends : value.Descends store segments last) (toLast : last.address? = some address) :
    ∃ owner, value.address? = some owner := by
  cases descends with
  | here => exact ⟨address, toLast⟩
  | entry has =>
      obtain ⟨_, owner, rfl⟩ := has.owner
      exact ⟨owner, rfl⟩

/-- A path leads down the ranks. -/
theorem Descends.rank_le (ranked : store.RankedBy rank) {value last : Value}
    {segments : List Identifier} (descends : value.Descends store segments last) {owner : Nat}
    (fromOwner : value.address? = some owner) (toLast : last.address? = some address) :
    rank address ≤ rank owner := by
  induction descends generalizing owner with
  | here =>
      cases fromOwner.symm.trans toLast
      exact Nat.le_refl _
  | entry has descends ih =>
      obtain ⟨kind, _, rfl⟩ := has.owner
      cases fromOwner
      obtain ⟨part, refers⟩ := descends.exists_address toLast
      exact Nat.le_trans (ih refers toLast) (Nat.le_of_lt (ranked.descends _ _ (has.part refers)))

/-- A path stays where no cell ranked above its end is written. -/
theorem Descends.kept {after : Store} (ranked : store.RankedBy rank) {value last : Value}
    {segments : List Identifier} (descends : value.Descends store segments last)
    (toLast : last.address? = some address)
    (same : ∀ owner < store.size, rank address < rank owner →
      after.cell? owner = store.cell? owner) : value.Descends after segments last := by
  induction descends with
  | here => exact .here
  | entry has descends ih =>
      obtain ⟨kind, owner, rfl⟩ := has.owner
      obtain ⟨part, refers⟩ := descends.exists_address toLast
      have above : rank address < rank owner :=
        Nat.lt_of_le_of_lt (descends.rank_le ranked refers toLast)
          (ranked.descends _ _ (has.part refers))
      obtain ⟨entries, atOwner, -⟩ := Option.bind_eq_some_iff.mp has.found
      have inBounds : owner < store.size :=
        (Array.getElem?_eq_some_iff.mp (Store.dictionary?_eq_some atOwner)).1
      refine .entry ⟨has.noProperty, has.noMember, ?_⟩ (ih toLast)
      rw [← has.found]
      simp only [Store.dictionary?, same owner inBounds above]

end

end Value

end FlowScript
