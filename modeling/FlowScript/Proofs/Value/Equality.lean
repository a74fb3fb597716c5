import FlowScript.Proofs.After
import FlowScript.Proofs.Real.Order
import FlowScript.Proofs.Scope.Stack
import FlowScript.Proofs.Storage.WalkDepth
import Mathlib.Data.List.Perm.Subperm

/-!
# Equality

Which comparison decides is up to the left operand, and of two dictionaries only the
left one's keys are looked up. All the same equality does not depend on the order of
its operands, and inequality is its negation, defined for the same operands.
-/

set_option autoImplicit false

namespace FlowScript

/-! ## Single values -/

theorem stringOrder_swap (left right : String) :
    Scalar.stringOrder right left = (Scalar.stringOrder left right).swap := by
  unfold Scalar.stringOrder
  rcases Std.lt_trichotomy left right with less | rfl | greater
  · have differ : right ≠ left := fun same => String.lt_irrefl left (same ▸ less)
    simp [less, String.lt_asymm less, differ]
  · simp
  · have differ : left ≠ right := fun same => String.lt_irrefl right (same ▸ greater)
    simp [greater, String.lt_asymm greater, differ]

theorem numberOrder_swap (left right : Number) :
    Scalar.numberOrder right left = (Scalar.numberOrder left right).map Ordering.swap := by
  cases left with
  | integer left =>
      cases right with
      | integer right =>
          have swapped : compare right.toInt left.toInt =
              (compare left.toInt right.toInt).swap := Std.OrientedCmp.eq_swap
          simp [Scalar.numberOrder, swapped]
      | real right => exact Real.order_swap _ _
  | real left => cases right <;> exact Real.order_swap _ _

theorem Duration.order_swap (left right : Duration) :
    right.order left = (left.order right).swap := by
  unfold Duration.order
  exact Std.OrientedCmp.eq_swap

theorem Instant.order_swap (left right : Instant) :
    right.order left = (left.order right).swap := by
  have seconds : compare right.seconds left.seconds =
      (compare left.seconds right.seconds).swap := Std.OrientedCmp.eq_swap
  have nanos : compare right.nanos left.nanos =
      (compare left.nanos right.nanos).swap := Std.OrientedCmp.eq_swap
  unfold Instant.order
  rw [seconds, nanos, Ordering.swap_then]

namespace Scalar

/-- Whether two values without parts are equal, where that is defined. -/
def equal? : Scalar → Scalar → Option Bool
  | .boolean left, .boolean right => some (left == right)
  | .integer left, .integer right => some (numberOrder (.integer left) (.integer right) == some .eq)
  | .integer left, .real right => some (numberOrder (.integer left) (.real right) == some .eq)
  | .real left, .integer right => some (numberOrder (.real left) (.integer right) == some .eq)
  | .real left, .real right => some (numberOrder (.real left) (.real right) == some .eq)
  | .string left, .string right => some (stringOrder left right == .eq)
  | .duration left, .duration right => some (left.order right == .eq)
  | .timePoint left, .timePoint right => some (left.order right == .eq)
  | _, _ => none

theorem compareNumbers_equal (left right : Number) :
    compareNumbers .equal left right = some (numberOrder left right == some .eq) := by
  unfold compareNumbers
  cases numberOrder left right with
  | none => rfl
  | some order => cases order <;> rfl

theorem compareNumbers_notEqual (left right : Number) :
    compareNumbers .notEqual left right = some (!(numberOrder left right == some .eq)) := by
  unfold compareNumbers
  cases numberOrder left right with
  | none => rfl
  | some order => cases order <;> rfl

theorem binary_equal (left right : Scalar) :
    binary .equal left right = truth (equal? left right) := by
  cases left <;> cases right <;>
    simp only [binary, equal?, numberBinary, compareNumbers_equal] <;> rfl

theorem binary_notEqual (left right : Scalar) :
    binary .notEqual left right = truth ((equal? left right).map not) := by
  cases left <;> cases right <;>
    simp only [binary, equal?, numberBinary, compareNumbers_notEqual] <;> rfl

theorem swap_beq_eq (order : Ordering) : (order.swap == .eq) = (order == .eq) := by
  cases order <;> rfl

theorem map_swap_beq_eq (order : Option Ordering) :
    (order.map Ordering.swap == some .eq) = (order == some .eq) := by
  cases order with
  | none => rfl
  | some order => cases order <;> rfl

theorem equal?_comm (left right : Scalar) : equal? left right = equal? right left := by
  cases left <;> cases right <;> try rfl
  case boolean.boolean left right => exact congrArg some Bool.beq_comm
  case string.string left right => simp [equal?, stringOrder_swap left right, swap_beq_eq]
  case duration.duration left right => simp [equal?, left.order_swap right, swap_beq_eq]
  case timePoint.timePoint left right => simp [equal?, left.order_swap right, swap_beq_eq]
  all_goals
    simp only [equal?]
    rw [numberOrder_swap, map_swap_beq_eq]

end Scalar

/-! ## Dictionaries -/

namespace Dictionary

variable {α : Type}

/-- Of two dictionaries of one size, when one has the keys of the other, the other has
the keys of the one. -/
theorem keys_subset_of_size {left right : Dictionary α} (once : left.keys.Nodup)
    (sizes : left.size = right.size) (subset : left.keys ⊆ right.keys) :
    right.keys ⊆ left.keys := by
  have lengths : right.keys.length ≤ left.keys.length := by
    simp only [keys, List.length_map]
    exact Nat.le_of_eq sizes.symm
  exact ((once.subperm subset).perm_of_length_le lengths).symm.subset

/-- Two dictionaries have as many entries, and under each key of the left one values
that pass the test. -/
def Agree (test : α → α → Bool) (left right : Dictionary α) : Prop :=
  left.size = right.size ∧ ∀ key value, left.get? key = some value →
    ∃ other, right.get? key = some other ∧ test value other = true

theorem Agree.symm {test : α → α → Bool}
    (symmetric : ∀ first second, test first second = test second first)
    {left right : Dictionary α} (once : left.keys.Nodup) (agree : left.Agree test right) :
    right.Agree test left := by
  obtain ⟨sizes, entries⟩ := agree
  have subset : left.keys ⊆ right.keys := by
    intro key member
    obtain ⟨value, found⟩ := Option.isSome_iff_exists.mp (find?_isSome_iff.mpr member)
    obtain ⟨other, otherFound, -⟩ := entries key value found
    exact find?_isSome_iff.mp (Option.isSome_iff_exists.mpr ⟨other, otherFound⟩)
  refine ⟨sizes.symm, fun key other otherFound => ?_⟩
  have member : key ∈ left.keys := keys_subset_of_size once sizes subset
    (find?_isSome_iff.mp (Option.isSome_iff_exists.mpr ⟨other, otherFound⟩))
  obtain ⟨value, found⟩ := Option.isSome_iff_exists.mp (find?_isSome_iff.mpr member)
  obtain ⟨same, sameFound, passes⟩ := entries key value found
  cases otherFound.symm.trans sameFound
  exact ⟨value, found, by rw [symmetric]; exact passes⟩

end Dictionary

/-! ## Values in a store -/

/-- A dictionary in the cell has each of its keys once. -/
def Cell.KeysOnce : Cell → Prop
  | .dictionary entries => entries.keys.Nodup
  | _ => True

/-- Every dictionary of the store has each of its keys once. -/
def Store.KeysOnce (store : Store) : Prop :=
  ∀ address cell, store.cell? address = some cell → cell.KeysOnce

namespace Value

theorem allPairs_comm {test : Value → Value → Bool}
    (symmetric : ∀ left right, test left right = test right left) (lefts rights : List Value) :
    allPairs test lefts rights = allPairs test rights lefts := by
  induction lefts generalizing rights with
  | nil => cases rights <;> rfl
  | cons left lefts ih =>
      cases rights with
      | nil => rfl
      | cons right rights => simp only [allPairs, symmetric left right, ih]

theorem cellsEqual?_dictionary_iff (test : Value → Value → Bool) {left : Dictionary Value}
    (once : left.keys.Nodup) (right : Dictionary Value) :
    cellsEqual? test (.dictionary left) (.dictionary right) = some true ↔
      left.Agree test right := by
  simp only [cellsEqual?, Option.some.injEq, Bool.and_eq_true, beq_iff_eq, List.all_eq_true,
    Dictionary.Agree]
  refine and_congr_right fun _ => ⟨fun tests key value found => ?_, fun agree entry member => ?_⟩
  · have passes := tests (key, value) ((Dictionary.find?_eq_some_iff once).mp found)
    cases otherFound : right.get? key with
    | none => simp [otherFound] at passes
    | some other => exact ⟨other, rfl, by simpa [otherFound] using passes⟩
  · obtain ⟨key, value⟩ := entry
    obtain ⟨other, otherFound, passes⟩ :=
      agree key value ((Dictionary.find?_eq_some_iff once).mpr member)
    simp [otherFound, passes]

theorem cellsEqual?_scalar (test : Value → Value → Bool) (left right : Scalar) :
    cellsEqual? test (.scalar left) (.scalar right) = left.equal? right := by
  simp only [cellsEqual?, Scalar.binary_equal]
  cases left.equal? right <;> rfl

theorem cellsEqual?_comm {test : Value → Value → Bool}
    (symmetric : ∀ left right, test left right = test right left) {left right : Cell}
    (leftOnce : left.KeysOnce) (rightOnce : right.KeysOnce) :
    cellsEqual? test left right = cellsEqual? test right left := by
  cases left with
  | scalar left =>
      cases right with
      | scalar right => rw [cellsEqual?_scalar, cellsEqual?_scalar, Scalar.equal?_comm]
      | array | dictionary => rfl
  | array lefts =>
      cases right with
      | array rights => exact congrArg some (allPairs_comm symmetric lefts rights)
      | scalar | dictionary => rfl
  | dictionary left =>
      cases right with
      | dictionary right =>
          have same : cellsEqual? test (.dictionary left) (.dictionary right) = some true ↔
              cellsEqual? test (.dictionary right) (.dictionary left) = some true := by
            rw [cellsEqual?_dictionary_iff test leftOnce, cellsEqual?_dictionary_iff test rightOnce]
            exact ⟨.symm symmetric leftOnce, .symm symmetric rightOnce⟩
          simp only [cellsEqual?, Option.some.injEq] at same ⊢
          exact Bool.eq_iff_iff.mpr same
      | scalar | array => rfl

/-- Down to any depth it makes no difference which operand stands on the left. -/
theorem equalTo?_comm {store : Store} (once : store.KeysOnce) (depth : Nat) (left right : Value) :
    (equalTo? depth store left right).getD false =
      (equalTo? depth store right left).getD false := by
  induction depth generalizing left right with
  | zero => rfl
  | succ depth ih =>
      cases left with
      | stored kind address =>
          cases right with
          | stored otherKind other =>
              rw [equalTo?_stored, equalTo?_stored]
              cases found : store.cell? address with
              | none => cases store.cell? other <;> rfl
              | some cell =>
                  cases otherFound : store.cell? other with
                  | none => rfl
                  | some otherCell =>
                      simp only
                      rw [cellsEqual?_comm ih (once _ _ found) (once _ _ otherFound)]
          | _ => rfl
      | error tag message location =>
          cases right with
          | error otherTag otherMessage otherLocation => exact Bool.beq_comm
          | _ => rfl
      | _ => cases right <;> rfl

/-! ## The two operators -/

theorem equal?_scalar {store : Store} {left right : Value} {scalar : Scalar}
    (leftScalar : store.scalar? left = some scalar) :
    equal? store left right = (store.scalar? right).bind scalar.equal? := by
  cases left with
  | stored kind address =>
      simp only [Store.scalar?] at leftScalar
      split at leftScalar
      · next value found =>
          cases leftScalar
          cases right with
          | stored otherKind other =>
              simp only [equal?, Store.walkDepth]
              rw [equalTo?_stored]
              simp only [found, Store.scalar?]
              cases store.cell? other with
              | none => rfl
              | some cell =>
                  cases cell with
                  | scalar other => exact cellsEqual?_scalar _ _ _
                  | array | dictionary => rfl
          | _ => rfl
      · cases leftScalar
  | _ => cases leftScalar

theorem binaryResult?_equal (store : Store) (left right : Value) :
    binaryResult? store .equal left right = Scalar.truth (equal? store left right) := by
  unfold binaryResult?
  cases leftScalar : store.scalar? left with
  | none => rfl
  | some scalar =>
      rw [equal?_scalar leftScalar]
      cases store.scalar? right with
      | none => rfl
      | some other => exact Scalar.binary_equal scalar other

theorem binaryResult?_notEqual (store : Store) (left right : Value) :
    binaryResult? store .notEqual left right =
      Scalar.truth ((equal? store left right).map not) := by
  unfold binaryResult?
  cases leftScalar : store.scalar? left with
  | none => rfl
  | some scalar =>
      rw [equal?_scalar leftScalar]
      cases store.scalar? right with
      | none => rfl
      | some other => exact Scalar.binary_notEqual scalar other

/-- The operator gives this boolean. -/
def Decides (store : Store) (op : BinaryOperator) (left right : Value) (answer : Bool) : Prop :=
  ∃ result final, (binary op left right).run.run store = (.ok result, final) ∧
    final.boolean? result = some answer

/-- The operator fails, not being defined for operands of these kinds. -/
def Unmatched (store : Store) (op : BinaryOperator) (left right : Value) : Prop :=
  ∃ final, (binary op left right).run.run store =
    (.error (.noBinaryOperator op left.kind right.kind), final)

section

variable {store : Store} {op : BinaryOperator} {left right : Value} {value : Option Bool}

theorem run_binary (store : Store) (op : BinaryOperator) (left right : Value) :
    (binary op left right).run.run store =
      match binaryResult? store op left right with
      | some (.ok result) => (.ok (.stored result.kind store.cells.size),
          { store with cells := store.cells.push (.scalar result) })
      | some (.error cause) => (.error cause, store)
      | none => (.error (.noBinaryOperator op left.kind right.kind), store) := by
  change ((match binaryResult? store op left right with
    | some (.ok result) => newScalar result
    | some (.error cause) => throw cause
    | none => throw (.noBinaryOperator op left.kind right.kind)) : StoreExceptM Value).run.run
      store = _
  cases binaryResult? store op left right with
  | none => rfl
  | some outcome => cases outcome <;> rfl

theorem decides_iff_of_truth (result : binaryResult? store op left right = Scalar.truth value)
    (answer : Bool) : Decides store op left right answer ↔ value = some answer := by
  cases value with
  | none =>
      refine ⟨fun ⟨_, _, ran, _⟩ => ?_, nofun⟩
      rw [run_binary, result] at ran
      cases ran
  | some given =>
      have stored : Store.boolean?
          { store with cells := store.cells.push (.scalar (.boolean given)) }
          (.stored .boolean store.cells.size) = some given := by
        simp [Store.boolean?, Store.scalar?, Store.cell?]
      have run := run_binary store op left right
      rw [result] at run
      refine ⟨fun ⟨_, _, ran, holds⟩ => ?_, fun same => ⟨_, _, run, stored.trans same⟩⟩
      cases run.symm.trans ran
      exact stored.symm.trans holds

theorem unmatched_iff_of_truth (result : binaryResult? store op left right = Scalar.truth value) :
    Unmatched store op left right ↔ value = none := by
  have run := run_binary store op left right
  rw [result] at run
  cases value with
  | none => exact iff_of_true ⟨_, run⟩ rfl
  | some given => exact ⟨fun ⟨_, ran⟩ => (nomatch run.symm.trans ran), nofun⟩

end

/-- Equality is symmetric and is what `==` decides, where it decides anything. There, and
only there, `!=` decides as well, and gives the opposite answer. -/
theorem equality_symmetric_complemented {store : Store} (once : store.KeysOnce)
    (left right : Value) :
    equals store left right = equals store right left ∧
      (equals store left right = true ↔ Decides store .equal left right true) ∧
      (∀ answer, Decides store .notEqual left right answer ↔
        Decides store .equal left right (!answer)) ∧
      (Unmatched store .notEqual left right ↔ Unmatched store .equal left right) ∧
      (Unmatched store .equal left right ∨ ∃ answer, Decides store .equal left right answer) := by
  have equal := binaryResult?_equal store left right
  have notEqual := binaryResult?_notEqual store left right
  simp only [decides_iff_of_truth equal, decides_iff_of_truth notEqual,
    unmatched_iff_of_truth equal, unmatched_iff_of_truth notEqual]
  refine ⟨equalTo?_comm once store.walkDepth left right, ?_⟩
  unfold equals
  cases equal? store left right with
  | none => simp
  | some answer => cases answer <;> simp

/-- Two dictionaries that hold the same cell, in which there is not a number. -/
def unorderedStore : Store :=
  ⟨#[.scalar (.real (0.0 / 0.0)), .dictionary ⟨[("a", .stored .real 0)]⟩,
    .dictionary ⟨[("a", .stored .real 0)]⟩], 0⟩

theorem unorderedStore_keysOnce : unorderedStore.KeysOnce := by
  intro address cell found
  match address with
  | 0 =>
      cases found
      trivial
  | 1 | 2 =>
      cases found
      exact List.nodup_singleton _
  | _ + 3 => cases found

/-- A dictionary and an action are compared the same both ways, whatever they hold. -/
theorem unorderedStore_symmetric_complemented :
    equals unorderedStore (stored .dictionary 1) (stored (.host .action) 2) =
        equals unorderedStore (stored (.host .action) 2) (stored .dictionary 1) ∧
      ∀ answer,
        Decides unorderedStore .notEqual (stored .dictionary 1) (stored (.host .action) 2) answer ↔
          Decides unorderedStore .equal (stored .dictionary 1) (stored (.host .action) 2)
            (!answer) := by
  obtain ⟨symmetric, -, complemented, -⟩ := equality_symmetric_complemented
    unorderedStore_keysOnce (stored .dictionary 1) (stored (.host .action) 2)
  exact ⟨symmetric, complemented⟩

end Value

end FlowScript
