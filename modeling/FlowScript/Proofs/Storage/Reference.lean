import FlowScript.Proofs.Value.Dictionary
import FlowScript.Value.Basic

/-!
# References between values and cells

Which cells a value refers to, which cells a cell holds, and which addresses a
value may mention. A member function does not hold its receiver and a pending
call does not hold its arguments, but both may mention them.
-/

set_option autoImplicit false

namespace FlowScript

/-! ## Cells held by a value or a cell -/

/-- The address of the cell that a value is a handle of. -/
def Value.address? : Value → Option Nat
  | .stored _ address => some address
  | _ => none

def addresses (values : List Value) : List Nat := values.filterMap Value.address?

@[simp] theorem addresses_nil : addresses [] = [] := rfl

@[simp] theorem addresses_append (left right : List Value) :
    addresses (left ++ right) = addresses left ++ addresses right :=
  List.filterMap_append

theorem mem_addresses {address : Nat} {values : List Value} :
    address ∈ addresses values ↔ ∃ value ∈ values, value.address? = some address :=
  List.mem_filterMap

theorem nodup_of_subperm {α : Type} {left right : List α} (contained : List.Subperm left right)
    (single : right.Nodup) : left.Nodup := by
  obtain ⟨middle, permuted, sublist⟩ := contained
  exact permuted.nodup_iff.mp (sublist.nodup single)

theorem addresses_subperm {left right : List Value} (contained : List.Subperm left right) :
    List.Subperm (addresses left) (addresses right) := by
  obtain ⟨middle, permuted, sublist⟩ := contained
  exact ⟨addresses middle, permuted.filterMap _, sublist.filterMap _⟩

theorem addresses_cons (value : Value) (values : List Value) :
    addresses (value :: values) = (value.address?).toList ++ addresses values := by
  unfold addresses
  rw [List.filterMap_cons]
  cases value.address? <;> rfl

def Cell.values : Cell → List Value
  | .scalar _ => []
  | .array items => items
  | .dictionary entries => entries.values

def Cell.parts (cell : Cell) : List Nat := addresses cell.values

namespace Store

def size (store : Store) : Nat := store.cells.size

def values (store : Store) : List Value := store.cells.toList.flatMap Cell.values

def held (store : Store) : List Nat := addresses store.values

def parts (store : Store) (address : Nat) : List Nat :=
  match store.cell? address with
  | some cell => cell.parts
  | none => []

theorem exists_cell_of_lt {store : Store} {address : Nat} (inBounds : address < store.size) :
    ∃ cell, store.cell? address = some cell :=
  ⟨_, Array.getElem?_eq_getElem inBounds⟩

theorem cell_mem {store : Store} {address : Nat} {cell : Cell}
    (found : store.cell? address = some cell) : cell ∈ store.cells.toList :=
  Array.mem_toList_iff.mpr (Array.mem_of_getElem? found)

theorem values_of_cell {store : Store} {address : Nat} {cell : Cell}
    (found : store.cell? address = some cell) {value : Value} (member : value ∈ cell.values) :
    value ∈ store.values :=
  List.mem_flatMap.mpr ⟨cell, cell_mem found, member⟩

theorem parts_of_cell {store : Store} {address : Nat} {cell : Cell}
    (found : store.cell? address = some cell) : store.parts address = cell.parts := by
  simp only [parts, found]

theorem mem_parts {store : Store} {address part : Nat} {cell : Cell}
    (found : store.cell? address = some cell) {value : Value} (member : value ∈ cell.values)
    (refers : value.address? = some part) : part ∈ store.parts address := by
  rw [parts_of_cell found]
  exact mem_addresses.mpr ⟨value, member, refers⟩

theorem parts_subset_held (store : Store) (address : Nat) :
    store.parts address ⊆ store.held := by
  intro part member
  unfold parts at member
  split at member
  · next cell found =>
      obtain ⟨value, valueMember, refers⟩ := mem_addresses.mp member
      exact mem_addresses.mpr ⟨value, values_of_cell found valueMember, refers⟩
  · cases member

theorem mem_held {store : Store} {address : Nat} (member : address ∈ store.held) :
    ∃ owner, address ∈ store.parts owner := by
  obtain ⟨value, valueMember, refers⟩ := mem_addresses.mp member
  obtain ⟨cell, cellMember, inCell⟩ := List.mem_flatMap.mp valueMember
  obtain ⟨owner, found⟩ := List.mem_iff_getElem?.mp cellMember
  have atOwner : store.cell? owner = some cell := by simpa [cell?] using found
  exact ⟨owner, mem_parts atOwner inCell refers⟩

end Store

/-! ## Addresses and workflows that a value mentions -/

/-- A value mentions only addresses below a bound and only allowed workflows.
Receivers and arguments count, however deep they are. -/
inductive Value.Within (allowed : Workflow → Prop) (bound : Nat) : Value → Prop where
  | void : Within allowed bound .void
  | error {tag : Nat} {message : String} {location : Option Span} :
      Within allowed bound (.error tag message location)
  | stored {kind : StoredKind} {address : Nat} :
      address < bound → Within allowed bound (.stored kind address)
  | member {function : MemberFunction} {receiver : Value} :
      Within allowed bound receiver → Within allowed bound (.member function receiver)
  | builtin {function : Builtin} : Within allowed bound (.builtin function)
  | workflow {definition : Workflow} :
      allowed definition → Within allowed bound (.workflow definition)
  | invocation {tag : Nat} {definition : Workflow} {arguments : CallArguments}
      {location : Span} :
      allowed definition →
      (∀ argument ∈ arguments.items, Within allowed bound argument.value) →
      Within allowed bound (.invocation tag definition arguments location)

theorem Value.Within.mono {allowed : Workflow → Prop} {bound larger : Nat} {value : Value}
    (within : value.Within allowed bound) (le : bound ≤ larger) :
    value.Within allowed larger := by
  induction within with
  | void => exact .void
  | error => exact .error
  | stored inBounds => exact .stored (Nat.lt_of_lt_of_le inBounds le)
  | member _ ih => exact .member ih
  | builtin => exact .builtin
  | workflow known => exact .workflow known
  | invocation known _ ih => exact .invocation known ih

theorem Value.Within.address_lt {allowed : Workflow → Prop} {bound address : Nat}
    {value : Value} (within : value.Within allowed bound)
    (refers : value.address? = some address) : address < bound := by
  cases within with
  | stored inBounds =>
      cases refers
      exact inBounds
  | _ => cases refers

def CallArguments.Within (allowed : Workflow → Prop) (bound : Nat)
    (arguments : CallArguments) : Prop :=
  ∀ argument ∈ arguments.items, argument.value.Within allowed bound

end FlowScript
