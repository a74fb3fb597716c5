import FlowScript.Real.Parts
import Mathlib.Order.Compare

/-!
# The order of real numbers

The order is that of the unpacked binary64 numbers. Turned around it is the opposite one,
and there is none in either direction where one of the two is not a number. Apart from
that it is a total preorder.
-/

set_option autoImplicit false

namespace FlowScript.Real

open Float.Model

theorem compare_swap (left right : UnpackedFloat) :
    right.compare left = (left.compare right).map Ordering.swap := by
  cases left with
  | notANumber => cases right <;> rfl
  | infinity sign =>
      cases right with
      | infinity other => cases sign <;> cases other <;> rfl
      | notANumber | zero | finite => cases sign <;> rfl
  | zero sign =>
      cases right with
      | infinity other => cases other <;> rfl
      | notANumber | zero => rfl
      | finite other => cases other <;> rfl
  | finite sign mantissa exponent =>
      cases right with
      | infinity other => cases sign <;> cases other <;> rfl
      | notANumber => rfl
      | zero => cases sign <;> rfl
      | finite other otherMantissa otherExponent =>
          have exponents : compare otherExponent exponent =
              (compare exponent otherExponent).swap := Std.OrientedCmp.eq_swap
          have mantissas : compare otherMantissa mantissa =
              (compare mantissa otherMantissa).swap := Std.OrientedCmp.eq_swap
          have sizes : (compare otherExponent exponent).then (compare otherMantissa mantissa) =
              ((compare exponent otherExponent).then (compare mantissa otherMantissa)).swap := by
            rw [exponents, mantissas, Ordering.swap_then]
          cases sign with
          | positive =>
              cases other with
              | positive => exact congrArg some sizes
              | negative => rfl
          | negative =>
              cases other with
              | positive => rfl
              | negative => exact congrArg (fun order => some order.swap) sizes

theorem lt_iff_compare (left right : Float) :
    left < right ↔ left.toModel.unpack.compare right.toModel.unpack = some .lt := by
  change decide ((left.toModel.unpack.compare right.toModel.unpack == some .lt) = true) = true ↔ _
  rw [decide_eq_true_iff, beq_iff_eq]

theorem beq_iff_compare (left right : Float) :
    (left == right) = true ↔ left.toModel.unpack.compare right.toModel.unpack = some .eq := by
  change (left.toModel.unpack.compare right.toModel.unpack == some .eq) = true ↔ _
  rw [beq_iff_eq]

theorem order_eq_compare (left right : Float) :
    order left right = left.toModel.unpack.compare right.toModel.unpack := by
  unfold order
  simp only [lt_iff_compare, beq_iff_compare, compare_swap left.toModel.unpack]
  cases left.toModel.unpack.compare right.toModel.unpack with
  | none => rfl
  | some found => cases found <;> rfl

/-- Turned around, the order is the opposite one. -/
theorem order_swap (left right : Float) :
    order right left = (order left right).map Ordering.swap := by
  rw [order_eq_compare, order_eq_compare, compare_swap]

/-! ## A total preorder -/

/-- Where a number lies: its band, from the negative infinity up, and its place there. -/
structure Standing where
  band : Int
  exponent : Int
  mantissa : Int

def Standing.order : Standing → Standing → Ordering :=
  compareLex (compareOn Standing.band)
    (compareLex (compareOn Standing.exponent) (compareOn Standing.mantissa))

/-- What is not a number lies nowhere. -/
def standing? : UnpackedFloat → Option Standing
  | .notANumber => none
  | .infinity .negative => some ⟨-2, 0, 0⟩
  | .finite .negative mantissa exponent _ => some ⟨-1, -exponent, -mantissa⟩
  | .zero _ => some ⟨0, 0, 0⟩
  | .finite .positive mantissa exponent _ => some ⟨1, exponent, mantissa⟩
  | .infinity .positive => some ⟨2, 0, 0⟩

theorem compare_neg (left right : Int) : compare (-left) (-right) = (compare left right).swap := by
  rw [Int.compare_swap]
  simp only [compare, compareOfLessAndEq, Int.neg_lt_neg_iff, Int.neg_inj, eq_comm]

theorem compare_natCast (left right : Nat) : compare (left : Int) right = compare left right := by
  simp only [compare, compareOfLessAndEq, Int.ofNat_lt, Int.ofNat_inj]

theorem compare_eq_standing (left right : UnpackedFloat) :
    left.compare right =
      (standing? left).bind fun first => (standing? right).map first.order := by
  cases left with
  | notANumber => rfl
  | infinity sign =>
      cases right with
      | infinity other => cases sign <;> cases other <;> rfl
      | finite other => cases sign <;> cases other <;> rfl
      | notANumber | zero => cases sign <;> rfl
  | zero sign =>
      cases right with
      | infinity other | finite other => cases other <;> rfl
      | notANumber | zero => rfl
  | finite sign mantissa exponent =>
      cases right with
      | infinity other => cases sign <;> cases other <;> rfl
      | notANumber | zero => cases sign <;> rfl
      | finite other otherMantissa otherExponent =>
          cases sign with
          | positive =>
              cases other with
              | positive =>
                  exact congrArg (fun order => some ((compare exponent otherExponent).then order))
                    (compare_natCast mantissa otherMantissa).symm
              | negative => rfl
          | negative =>
              cases other with
              | positive => rfl
              | negative =>
                  have exponents := compare_neg exponent otherExponent
                  have mantissas := (compare_neg mantissa otherMantissa).trans
                    (congrArg Ordering.swap (compare_natCast mantissa otherMantissa))
                  change some ((compare exponent otherExponent).then _).swap =
                    some ((compare (-exponent) (-otherExponent)).then
                      (compare (-(mantissa : Int)) (-(otherMantissa : Int))))
                  rw [exponents, mantissas, Ordering.swap_then]

instance : Std.TransCmp Standing.order := by
  unfold Standing.order
  infer_instance

theorem le_iff_standing (left right : Float) :
    left ≤ right ↔ ∃ first second, standing? left.toModel.unpack = some first ∧
      standing? right.toModel.unpack = some second ∧ (first.order second).isLE = true := by
  change decide ((left.toModel.unpack.compare right.toModel.unpack).any Ordering.isLE = true) =
    true ↔ _
  rw [decide_eq_true_iff, compare_eq_standing]
  cases standing? left.toModel.unpack with
  | none => simp
  | some first => cases standing? right.toModel.unpack <;> simp

theorem le_iff_order (left right : Float) :
    left ≤ right ↔ ∃ found, order left right = some found ∧ found.isLE = true := by
  rw [order_eq_compare]
  change decide ((left.toModel.unpack.compare right.toModel.unpack).any Ordering.isLE = true) =
    true ↔ _
  rw [decide_eq_true_iff, Option.any_eq_true]

theorem le_trans {left middle right : Float} (first : left ≤ middle) (second : middle ≤ right) :
    left ≤ right := by
  obtain ⟨low, between, foundLow, foundBetween, firstLE⟩ := (le_iff_standing _ _).mp first
  obtain ⟨same, high, foundSame, foundHigh, secondLE⟩ := (le_iff_standing _ _).mp second
  cases foundBetween.symm.trans foundSame
  exact (le_iff_standing _ _).mpr
    ⟨low, high, foundLow, foundHigh, Std.TransCmp.isLE_trans firstLE secondLE⟩

theorem exists_standing {value : Float} (isNumber : value.isNaN = false) :
    ∃ place, standing? value.toModel.unpack = some place := by
  change value.toModel.unpack.isNaN = false at isNumber
  cases unpacked : value.toModel.unpack with
  | notANumber =>
      rw [unpacked] at isNumber
      cases isNumber
  | infinity sign | finite sign => cases sign <;> exact ⟨_, rfl⟩
  | zero => exact ⟨_, rfl⟩

/-- Two numbers have an order. -/
theorem exists_order {left right : Float} (leftNumber : left.isNaN = false)
    (rightNumber : right.isNaN = false) : ∃ found, order left right = some found := by
  obtain ⟨first, foundFirst⟩ := exists_standing leftNumber
  obtain ⟨second, foundSecond⟩ := exists_standing rightNumber
  rw [order_eq_compare, compare_eq_standing, foundFirst, foundSecond]
  exact ⟨_, rfl⟩

end FlowScript.Real
