import FlowScript.Proofs.Guard.Cell
import FlowScript.Run.Evaluator
import Mathlib.Order.Defs.PartialOrder

/-!
# Machines only grow

Events and requests are never taken back, and cells and tags are never given free.
That orders the machines of a run: the later ones are the greater ones, whether a
computation ends with a value or is interrupted.
-/

set_option autoImplicit false

namespace FlowScript

open RunM

/-- A greater store has more cells and has used up more tags. -/
instance : Preorder Store where
  le before after := before.cells.size ≤ after.cells.size ∧ before.nextTag ≤ after.nextTag
  le_refl store := ⟨Nat.le_refl _, Nat.le_refl _⟩
  le_trans _ _ _ left right :=
    ⟨Nat.le_trans left.1 right.1, Nat.le_trans left.2 right.2⟩

namespace Store

theorem lt_push (store : Store) (cell : Cell) :
    store < { store with cells := store.cells.push cell } := by
  have size : (store.cells.push cell).size = store.cells.size + 1 := Array.size_push cell
  refine ⟨⟨Nat.le_of_succ_le (Nat.le_of_eq size.symm), Nat.le_refl _⟩, fun back => ?_⟩
  exact Nat.not_succ_le_self _ (size ▸ back.1)

theorem lt_nextTag (store : Store) : store < { store with nextTag := store.nextTag + 1 } :=
  ⟨⟨Nat.le_refl _, Nat.le_succ _⟩, fun back => Nat.not_succ_le_self _ back.2⟩

theorem le_write (store : Store) (address : Nat) (cell : Cell) :
    store ≤ store.write address cell :=
  ⟨Nat.le_of_eq Array.size_setIfInBounds.symm, Nat.le_refl _⟩

end Store

/-- On a greater machine more is reported, requested and stored. -/
structure Machine.Precedes (before after : Machine) : Prop where
  store : before.store ≤ after.store
  logs : before.logs.toList <+: after.logs.toList
  requests : before.requests.toList <+: after.requests.toList

instance : Preorder Machine where
  le := Machine.Precedes
  le_refl _ := ⟨le_refl _, List.prefix_rfl, List.prefix_rfl⟩
  le_trans _ _ _ left right :=
    ⟨le_trans left.store right.store, left.logs.trans right.logs,
      left.requests.trans right.requests⟩

/-- However it ends, the computation leaves a greater state behind. -/
def Grows {σ α : Type} [Preorder σ] (action : StateM σ α) : Prop :=
  ∀ state, After action state fun _ final => state ≤ final

namespace Grows

section

variable {σ ε α β : Type} [Preorder σ]

theorem modify {change : σ → σ} (grows : ∀ state, state ≤ change state) :
    Grows (modify change : StateM σ PUnit) := grows

theorem run_pure (value : α) : Grows (Pure.pure value : ExceptT ε (StateM σ) α).run :=
  fun state => le_refl state

theorem run_throw (error : ε) : Grows (throw error : ExceptT ε (StateM σ) α).run :=
  fun state => le_refl state

theorem run_get : Grows (MonadState.get : ExceptT ε (StateM σ) σ).run := fun state => le_refl state

theorem run_bind {first : ExceptT ε (StateM σ) α} {next : α → ExceptT ε (StateM σ) β}
    (firstGrows : Grows first.run) (nextGrows : ∀ value, Grows (next value).run) :
    Grows (first >>= next).run := by
  intro state
  rw [after_run_bind]
  refine (firstGrows state).imp fun outcome middle before => ?_
  cases outcome with
  | ok value => exact (nextGrows value middle).imp fun _ _ after => le_trans before after
  | error => exact before

end

end Grows

/-! ## Stores -/

/-- The stores that are at least as great as another one. Nothing is asked of values. -/
def Store.above (base : Store) : WriteGuard where
  holds store := base ≤ store
  good _ := True
  fits _ := True
  void := trivial
  error _ _ _ := trivial
  member_iff := Iff.rfl
  scalar _ := trivial
  array _ := trivial
  empty := trivial
  insert _ _ := trivial
  copy _ _ _ := trivial
  values _ _ _ := trivial
  push above _ := ⟨le_trans above (le_of_lt (lt_push _ _)), fun _ => trivial⟩
  tag above := le_trans above (le_of_lt (lt_nextTag _))
  write above _ _ := le_trans above (le_write _ _ _)
  cell _ _ _ := trivial

theorem grows_allocate (kind : StoredKind) (cell : Cell) : Grows (allocate kind cell) :=
  fun store => (store.above.hands_allocate kind trivial store (le_refl store)).1

/-! ## Machines -/

namespace Machine

theorem le_withScopes (machine : Machine) (scopes : ScopeStack) :
    machine ≤ { machine with scopes } :=
  ⟨le_refl _, List.prefix_rfl, List.prefix_rfl⟩

theorem le_withStore {machine : Machine} {store : Store} (le : machine.store ≤ store) :
    machine ≤ { machine with store } :=
  ⟨le, List.prefix_rfl, List.prefix_rfl⟩

theorem lt_withStore {machine : Machine} {store : Store} (lt : machine.store < store) :
    machine < { machine with store } :=
  ⟨le_withStore (le_of_lt lt), fun back => lt_irrefl _ (lt_of_lt_of_le lt back.store)⟩

theorem lt_report (machine : Machine) (event : LogEvent) :
    machine < { machine with logs := machine.logs.push event } := by
  refine ⟨⟨le_refl _, ?_, List.prefix_rfl⟩, fun back => ?_⟩
  · rw [Array.toList_push]
    exact List.prefix_append _ _
  · have length := back.logs.length_le
    rw [Array.toList_push, List.length_append] at length
    exact Nat.not_succ_le_self _ length

end Machine

theorem grows_onStore {α : Type} {action : StoreM α} (grows : Grows action) :
    Grows (onStore action).run :=
  fun machine => Machine.le_withStore (grows machine.store)

end FlowScript
