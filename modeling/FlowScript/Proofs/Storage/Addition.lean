import FlowScript.Proofs.Guard.Cell

/-!
# Operations that only add to a store

Conversions, operators, properties, copies and constructions make new cells and use up
tags. Whether they succeed or fail, they leave every cell as it was.
-/

set_option autoImplicit false

namespace FlowScript

/-- Behind the cells of a store come others, and no tag has become free again. -/
structure Store.Appends (before after : Store) : Prop where
  cells : before.cells.toList <+: after.cells.toList
  tags : before.nextTag ≤ after.nextTag

namespace Store

variable {base store : Store}

theorem Appends.refl (store : Store) : store.Appends store :=
  ⟨List.prefix_rfl, Nat.le_refl _⟩

theorem Appends.cell? (appends : base.Appends store) {address : Nat} {cell : Cell}
    (found : base.cell? address = some cell) : store.cell? address = some cell := by
  obtain ⟨added, whole⟩ := appends.cells
  simp only [Store.cell?, ← Array.getElem?_toList] at found ⊢
  obtain ⟨inBounds, -⟩ := List.getElem?_eq_some_iff.mp found
  rw [← whole, List.getElem?_append_left inBounds, found]

theorem Appends.allocate (appends : base.Appends store) (cell : Cell) :
    base.Appends { store with cells := store.cells.push cell } where
  cells := by
    rw [Array.toList_push]
    exact appends.cells.trans (List.prefix_append _ _)
  tags := appends.tags

theorem Appends.tag (appends : base.Appends store) :
    base.Appends { store with nextTag := store.nextTag + 1 } :=
  ⟨appends.cells, Nat.le_succ_of_le appends.tags⟩

/-- The computation keeps all that is added to a store. -/
def Gains (base : Store) {α : Type} (action : StoreM α) : Prop :=
  Keeping base.Appends action fun _ => True

/-- The computation keeps all that is added to a store, even if it fails. -/
def GainsAny (base : Store) {α : Type} (action : StoreExceptM α) : Prop :=
  Keeping base.Appends action.run (Ends (fun _ => True) fun _ => True)

/-- The stores that have come of another one by additions. Anything may be added, so nothing
is asked of values and cells. -/
def additions (base : Store) : CellGuard where
  holds := base.Appends
  good _ := True
  fits _ := True
  void := trivial
  error _ _ _ := trivial
  member_iff := Iff.rfl
  scalar _ := trivial
  array _ := trivial
  empty := trivial
  insert _ _ := trivial
  copy _ _ _ := trivial
  values _ _ _ := trivial
  push appends _ := ⟨appends.allocate _, fun _ => trivial⟩
  tag appends := appends.tag
  cell _ _ _ := trivial

theorem GainsAny.lift {base : Store} {α : Type} {action : StoreM α} (gains : base.Gains action) :
    base.GainsAny (liftM action) :=
  Keeping.run_lift gains

end Store

namespace Value

variable {base : Store}

theorem gains_detach (value : Value) : base.Gains value.detach :=
  base.additions.hands_detach trivial

theorem gains_detachedCell? (value : Value) : base.Gains value.detachedCell? :=
  fun store start => (base.additions.hands_detachedCell? trivial store start).imp
    fun _ _ ends => ⟨ends.1, trivial⟩

theorem gains_binary (op : BinaryOperator) (left right : Value) :
    base.GainsAny (left.binary op right) :=
  base.additions.hands_binary op left right

theorem gains_unary (op : UnaryOperator) (operand : Value) : base.GainsAny (operand.unary op) :=
  base.additions.hands_unary op operand

theorem gains_convert (value : Value) (target : Kind) : base.GainsAny (value.convert target) :=
  base.additions.hands_convert trivial target

theorem gains_property (value : Value) (name : String) : base.GainsAny (value.property name) :=
  base.additions.hands_property trivial name

theorem gains_construct (now : Instant) (kind : Kind) (argument : Value) :
    base.GainsAny (construct now kind argument) :=
  base.additions.hands_construct now kind trivial

end Value

end FlowScript
