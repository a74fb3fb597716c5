import FlowScript.Proofs.Guard.Cell

/-!
# What operations on values leave as it was

What holds of a store and of the values that are handed around goes from the operands of an
operation to its result, and to the store afterwards. Here a cell may be anything that has
only such values in it.
-/

set_option autoImplicit false

namespace FlowScript

/-- What holds of a store, and of every value that is handed around. New values and the
contents of values have it, and it stays when one of them is written. -/
structure StoreGuard where
  holds : Store → Prop
  good : Value → Prop
  void : good .void
  error (tag : Nat) (message : String) (location : Option Span) :
    good (.error tag message location)
  member_iff {function : MemberFunction} {receiver : Value} :
    good (.member function receiver) ↔ good receiver
  /-- A new cell may hold values that are handed around. -/
  push {store : Store} {cell : Cell} : holds store → (∀ value ∈ cell.values, good value) →
    holds (store.push cell) ∧ ∀ kind, good (.stored kind store.size)
  tag {store : Store} (nextTag : Nat) : holds store → holds { store with nextTag }
  write {store : Store} {kind : StoredKind} {address : Nat} {cell : Cell} : holds store →
    good (.stored kind address) → (∀ value ∈ cell.values, good value) →
    holds (store.write address cell)
  cell {store : Store} {kind : StoredKind} {address : Nat} {cell : Cell} : holds store →
    good (.stored kind address) → store.cell? address = some cell →
    ∀ value ∈ cell.values, good value

namespace StoreGuard

variable (guard : StoreGuard)

/-- A computation on the store hands on what is guarded. -/
def Hands {α : Type} (action : StoreM α) (post : α → Prop) : Prop :=
  Keeping guard.holds action post

/-- A computation that can fail hands on what is guarded. -/
def HandsAny {α : Type} (action : StoreExceptM α) (post : α → Prop) : Prop :=
  Keeping guard.holds action.run (Ends (fun _ => True) post)

/-- A cell is guarded by the values in it, whatever its form. -/
def cells : WriteGuard where
  holds := guard.holds
  good := guard.good
  fits cell := ∀ value ∈ cell.values, guard.good value
  void := guard.void
  error := guard.error
  member_iff := guard.member_iff
  scalar _ := nofun
  array inside := inside
  empty := nofun
  insert inside valueGood := Dictionary.insert_all inside valueGood
  copy _ _ inside := inside
  values inside := inside
  push := guard.push
  tag := guard.tag _
  write := guard.write
  cell := guard.cell

theorem dictionary {store : Store} (start : guard.holds store) {value : Value}
    (valueGood : guard.good value) {entries : Dictionary Value}
    (found : store.dictionary? value = some entries) :
    ∀ entry ∈ entries.values, guard.good entry :=
  guard.cells.fits_dictionary start valueGood found

end StoreGuard

end FlowScript
