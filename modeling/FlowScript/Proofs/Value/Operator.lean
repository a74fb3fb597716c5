import FlowScript.Proofs.Storage.Contents
import FlowScript.Proofs.Value.Equality

/-!
# Operators on single values

What a binary operator does with values in a store is decided by what the store says of
them. A result is stored as a new value, and all that was known of the others stays.
-/

set_option autoImplicit false

namespace FlowScript

theorem Store.Keeps.scalar? {store final : Store} (keeps : store.Keeps final) {value : Value}
    {scalar : Scalar} (found : store.scalar? value = some scalar) :
    final.scalar? value = some scalar := by
  cases value with
  | stored kind address =>
      cases cell : store.cell? address with
      | none => simp [Store.scalar?, cell] at found
      | some contents =>
          simp only [Store.scalar?, cell, keeps address contents cell] at found ⊢
          exact found
  | _ => cases found

namespace Value

/-- The operator ends with a value. -/
def Gives (store : Store) (op : BinaryOperator) (left right result : Value) (final : Store) :
    Prop :=
  (binary op left right).run.run store = (.ok result, final)

/-- The operator fails. -/
def Refuses (store : Store) (op : BinaryOperator) (left right : Value) (cause : Cause) : Prop :=
  (binary op left right).run.run store = (.error cause, store)

/-- The operators compare the values like these two numbers. -/
structure ComparesLike (store : Store) (left right : Value) (first second : Int) : Prop where
  less : ∀ answer, Decides store .less left right answer ↔ answer = decide (first < second)
  lessEqual : ∀ answer,
    Decides store .lessEqual left right answer ↔ answer = decide (first ≤ second)
  greater : ∀ answer, Decides store .greater left right answer ↔ answer = decide (second < first)
  greaterEqual : ∀ answer,
    Decides store .greaterEqual left right answer ↔ answer = decide (second ≤ first)
  equal : ∀ answer, Decides store .equal left right answer ↔ answer = decide (first = second)
  notEqual : ∀ answer,
    Decides store .notEqual left right answer ↔ answer = decide (first ≠ second)

section

variable {store final : Store} {op : BinaryOperator} {left right result : Value}
  {first second : Scalar}

theorem binaryResult?_scalar (leftScalar : store.scalar? left = some first)
    (rightScalar : store.scalar? right = some second) :
    binaryResult? store op left right = Scalar.binary op first second := by
  simp only [binaryResult?, leftScalar, rightScalar]

theorem Gives.computed (gives : Gives store op left right result final)
    (leftScalar : store.scalar? left = some first)
    (rightScalar : store.scalar? right = some second) :
    ∃ scalar, Scalar.binary op first second = some (.ok scalar) ∧
      final.scalar? result = some scalar ∧ store.Keeps final := by
  have run := run_binary store op left right
  rw [binaryResult?_scalar leftScalar rightScalar, gives] at run
  cases computed : Scalar.binary op first second with
  | none =>
      rw [computed] at run
      cases run
  | some outcome =>
      rw [computed] at run
      cases outcome with
      | error cause => cases run
      | ok scalar =>
          cases run
          refine ⟨scalar, rfl, ?_, store.keeps_push _⟩
          simp [Store.scalar?, Store.cell?]

theorem exists_gives (leftScalar : store.scalar? left = some first)
    (rightScalar : store.scalar? right = some second) {scalar : Scalar}
    (computed : Scalar.binary op first second = some (.ok scalar)) :
    ∃ result final, Gives store op left right result final ∧
      final.scalar? result = some scalar ∧ store.Keeps final := by
  have run := run_binary store op left right
  rw [binaryResult?_scalar leftScalar rightScalar, computed] at run
  refine ⟨_, _, run, ?_, store.keeps_push _⟩
  simp [Store.scalar?, Store.cell?]

theorem refuses_of_error (leftScalar : store.scalar? left = some first)
    (rightScalar : store.scalar? right = some second) {cause : Cause}
    (computed : Scalar.binary op first second = some (.error cause)) :
    Refuses store op left right cause := by
  have run := run_binary store op left right
  rw [binaryResult?_scalar leftScalar rightScalar, computed] at run
  exact run

theorem Gives.not_refuses (gives : Gives store op left right result final) (cause : Cause) :
    ¬ Refuses store op left right cause :=
  fun refuses => nomatch gives.symm.trans refuses

theorem decides_iff_decide {holds answer : Bool} {fact : Prop} [Decidable fact]
    (result : binaryResult? store op left right = Scalar.truth (some holds))
    (means : holds = true ↔ fact) :
    Decides store op left right answer ↔ answer = decide fact := by
  have same : holds = decide fact := by rw [Bool.eq_iff_iff, means, decide_eq_true_iff]
  rw [decides_iff_of_truth result, Option.some_inj, same, eq_comm]

/-- Operators that decide by the order of two numbers compare like them. -/
theorem comparesLike_of_order {first second : Int}
    (compared : ∀ op answer, Scalar.decideOrder op (compare first second) = some answer →
      binaryResult? store op left right = Scalar.truth (some answer)) :
    ComparesLike store left right first second where
  less _ := decides_iff_decide (compared .less _ rfl) (by simp [Int.compare_eq_lt])
  lessEqual _ := decides_iff_decide (compared .lessEqual _ rfl) (by simp [Int.compare_ne_gt])
  greater _ := decides_iff_decide (compared .greater _ rfl) (by simp [Int.compare_eq_gt])
  greaterEqual _ := decides_iff_decide (compared .greaterEqual _ rfl) (by simp [Int.compare_ne_lt])
  equal _ := decides_iff_decide (compared .equal _ rfl) (by simp)
  notEqual _ := decides_iff_decide (compared .notEqual _ rfl) (by simp)

/-- Numbers in the same order are compared alike. -/
theorem ComparesLike.congr {first second other another : Int}
    (like : ComparesLike store left right first second)
    (less : first < second ↔ other < another) (greater : second < first ↔ another < other) :
    ComparesLike store left right other another := by
  have lessEqual : first ≤ second ↔ other ≤ another := by omega
  have greaterEqual : second ≤ first ↔ another ≤ other := by omega
  have equal : first = second ↔ other = another := by omega
  have notEqual : first ≠ second ↔ other ≠ another := not_congr equal
  exact {
    less := fun _ => by rw [like.less, decide_eq_decide.mpr less]
    lessEqual := fun _ => by rw [like.lessEqual, decide_eq_decide.mpr lessEqual]
    greater := fun _ => by rw [like.greater, decide_eq_decide.mpr greater]
    greaterEqual := fun _ => by rw [like.greaterEqual, decide_eq_decide.mpr greaterEqual]
    equal := fun _ => by rw [like.equal, decide_eq_decide.mpr equal]
    notEqual := fun _ => by rw [like.notEqual, decide_eq_decide.mpr notEqual] }

end

end Value

end FlowScript
