import FlowScript.Proofs.Real.Nearest
import FlowScript.Proofs.Real.Order
import Mathlib

/-!
# Integers as reals

The real that an integer is converted to stands for the nearest whole number of 53 binary
digits. So the reals of two integers are ordered like these whole numbers.
-/

set_option autoImplicit false

namespace FlowScript.Real

/-! ## Unpacked numbers -/

open Float.Model UnpackedFloat

/-- The unpacked number is a zero or has all of its 53 binary digits, and it stands for a
whole number. -/
inductive Shows : UnpackedFloat → Int → Prop
  | zero (sign : Sign) : Shows (.zero sign) 0
  | finite (sign : Sign) {mantissa shift value : Nat} (positive : 0 < mantissa)
      (long : 2 ^ 52 ≤ mantissa) (short : mantissa < 2 ^ 53) (small : shift ≤ 64)
      (size : mantissa * 2 ^ shift = value * 2 ^ 52) :
      Shows (.finite sign mantissa (shift - 52) positive) (sign.apply value)

/-- Of two numbers with all of their digits the one with the greater shift is greater. -/
theorem compare_shifted {left right leftShift rightShift : Nat} (leftLong : 2 ^ 52 ≤ left)
    (leftShort : left < 2 ^ 53) (rightLong : 2 ^ 52 ≤ right) (rightShort : right < 2 ^ 53) :
    (compare leftShift rightShift).then (compare left right) =
      compare (left * 2 ^ leftShift) (right * 2 ^ rightShift) := by
  have apart : ∀ {small large smallShift largeShift : Nat}, small < 2 ^ 53 → 2 ^ 52 ≤ large →
      smallShift < largeShift → small * 2 ^ smallShift < large * 2 ^ largeShift := by
    intro small large smallShift largeShift short long less
    calc small * 2 ^ smallShift < 2 ^ 53 * 2 ^ smallShift :=
          Nat.mul_lt_mul_of_pos_right short (Nat.two_pow_pos _)
      _ = 2 ^ 52 * 2 ^ (smallShift + 1) := by ring
      _ ≤ large * 2 ^ largeShift :=
          Nat.mul_le_mul long (Nat.pow_le_pow_right Nat.two_pos less)
  rcases Nat.lt_trichotomy leftShift rightShift with less | rfl | greater
  · rw [Nat.compare_eq_lt.mpr less, Nat.compare_eq_lt.mpr (apart leftShort rightLong less)]
    rfl
  · rw [Nat.compare_eq_eq.mpr rfl]
    simp only [Ordering.eq_then, compare, compareOfLessAndEq,
      Nat.mul_lt_mul_right (Nat.two_pow_pos leftShift),
      Nat.mul_left_inj (Nat.ne_of_gt (Nat.two_pow_pos leftShift))]
  · rw [Nat.compare_eq_gt.mpr greater, Nat.compare_eq_gt.mpr (apart rightShort leftLong greater)]
    rfl

theorem value_pos {mantissa shift value : Nat} (positive : 0 < mantissa)
    (size : mantissa * 2 ^ shift = value * 2 ^ 52) : (0 : Int) < value := by
  have := Nat.mul_pos positive (Nat.two_pow_pos shift)
  omega

theorem compare_sizes {left right leftShift rightShift value other : Nat}
    (leftLong : 2 ^ 52 ≤ left) (leftShort : left < 2 ^ 53) (rightLong : 2 ^ 52 ≤ right)
    (rightShort : right < 2 ^ 53) (leftSize : left * 2 ^ leftShift = value * 2 ^ 52)
    (rightSize : right * 2 ^ rightShift = other * 2 ^ 52) :
    (compare ((leftShift : Int) - 52) (rightShift - 52)).then (compare left right) =
      compare (value : Int) other := by
  have shifts : compare ((leftShift : Int) - 52) (rightShift - 52) =
      compare leftShift rightShift := by
    simp only [compare, compareOfLessAndEq, Int.sub_lt_sub_right_iff, Int.sub_left_inj,
      Int.ofNat_lt, Int.ofNat_inj]
  rw [shifts, compare_shifted leftLong leftShort rightLong rightShort, leftSize, rightSize]
  simp only [compare, compareOfLessAndEq, Nat.mul_lt_mul_right (Nat.two_pow_pos 52),
    Nat.mul_left_inj (Nat.ne_of_gt (Nat.two_pow_pos 52)), Int.ofNat_lt, Int.ofNat_inj]

/-- Numbers are ordered like what they stand for. -/
theorem Shows.compare {left right : UnpackedFloat} {value other : Int}
    (leftShows : Shows left value) (rightShows : Shows right other) :
    left.compare right = some (compare value other) := by
  have less {small large : Int} (lt : small < large) : some .lt = some (Ord.compare small large) :=
    congrArg some (Int.compare_eq_lt.mpr lt).symm
  have greater {small large : Int} (lt : small < large) :
      some .gt = some (Ord.compare large small) :=
    congrArg some (Int.compare_eq_gt.mpr lt).symm
  cases leftShows with
  | zero =>
      cases rightShows with
      | zero => rfl
      | finite sign positive _ _ _ size =>
          have value := value_pos positive size
          cases sign with
          | positive => exact less value
          | negative => exact greater (Int.neg_neg_of_pos value)
  | finite sign positive long short _ size =>
      have value := value_pos positive size
      cases rightShows with
      | zero =>
          cases sign with
          | positive => exact greater value
          | negative => exact less (Int.neg_neg_of_pos value)
      | finite other otherPositive otherLong otherShort _ otherSize =>
          have otherValue := value_pos otherPositive otherSize
          have sizes := compare_sizes long short otherLong otherShort size otherSize
          cases sign with
          | positive =>
              cases other with
              | positive => exact congrArg some sizes
              | negative => exact greater (Int.lt_trans (Int.neg_neg_of_pos otherValue) value)
          | negative =>
              cases other with
              | positive => exact less (Int.lt_trans (Int.neg_neg_of_pos value) otherValue)
              | negative =>
                  exact congrArg some ((congrArg Ordering.swap sizes).trans (compare_neg _ _).symm)

/-! ## Packing -/

/-- The leading digit, which is not stored, is put back before the others. -/
theorem mantissa_restored {mantissa : Nat} (long : 2 ^ 52 ≤ mantissa)
    (short : mantissa < 2 ^ 53) : (1#1 ++ BitVec.ofNat 52 mantissa).toNat = mantissa := by
  rw [BitVec.toNat_append, ← Nat.shiftLeft_add_eq_or_of_lt (BitVec.ofNat 52 mantissa).isLt]
  simp only [BitVec.toNat_ofNat, Nat.shiftLeft_eq]
  omega

/-- A number with all of its digits is the same after it is packed. -/
theorem unpack_pack_finite (sign : Sign) {mantissa shift : Nat} (positive : 0 < mantissa)
    (long : 2 ^ 52 ≤ mantissa) (short : mantissa < 2 ^ 53) (small : shift ≤ 64) :
    UnpackedFloat.unpack .binary64
        (UnpackedFloat.pack .binary64 (.finite sign mantissa (shift - 52) positive)) =
      .finite sign mantissa (shift - 52) positive := by
  have digits : mantissa.log2 + 1 = Format.binary64.mantissaBits :=
    congrArg (· + 1) ((Nat.log2_eq_iff (Nat.ne_of_gt positive)).mpr ⟨long, short⟩)
  have bias : Format.binary64.exponentBias = 1023 := rfl
  have biased : ((shift : Int) - 52 + Format.binary64.exponentBias +
      Format.binary64.mantissaBitsWithoutImplicit).toNat = shift + 1023 := by
    change ((shift : Int) - 52 + (1023 : Nat) + (52 : Nat)).toNat = shift + 1023
    omega
  have stored : (BitVec.ofNat 11 (shift + 1023)).toNat = shift + 1023 := by
    rw [BitVec.toNat_ofNat, Nat.mod_eq_of_lt (by omega)]
  have notAllOnes : BitVec.ofNat 11 (shift + 1023) ≠ -1#11 := fun same => by
    have := congrArg BitVec.toNat same
    rw [stored] at this
    simp at this
    omega
  have notZero : BitVec.ofNat 11 (shift + 1023) ≠ 0#11 := fun same => by
    have := congrArg BitVec.toNat same
    rw [stored] at this
    simp at this
  have inRange : ¬ 2 ^ Format.binary64.exponentBits ≤ shift + 1023 + 1 := by
    simp only
    omega
  unfold UnpackedFloat.pack
  simp only [biased, if_neg inRange, if_pos digits]
  unfold UnpackedFloat.unpack
  simp only [unpackExponent_packComponents, unpackMantissa_packComponents,
    unpackSign_packComponents, if_neg notAllOnes, if_neg notZero, stored, bias,
    mantissa_restored long short]
  cases sign <;> simp [Sign.toBitVec, Sign.ofBitVec] <;> omega

theorem Shows.packed {float : UnpackedFloat} {value : Int} (shows : Shows float value) :
    (Float.Model.pack float).unpack = float := by
  cases shows with
  | zero sign => cases sign <;> rfl
  | finite sign positive long short small => exact unpack_pack_finite sign positive long short small

theorem Shows.neg {float : UnpackedFloat} {value : Int} (shows : Shows float value) :
    Shows float.neg (-value) := by
  cases shows with
  | zero sign => exact .zero _
  | finite sign positive long short small size =>
      cases sign with
      | positive => exact .finite .negative positive long short small size
      | negative =>
          rw [Sign.apply, Int.neg_neg]
          exact .finite .positive positive long short small size

/-! ## Rounding of unpacked numbers -/

/-- A mantissa after its last digits are cut off, with what is known of these. -/
theorem shiftRight_eq (mantissa count : Nat) :
    (⟨mantissa, false, false⟩ : ExtendedMantissa) >>> (count + 1) =
      ⟨mantissa / 2 ^ (count + 1), mantissa / 2 ^ count % 2 != 0, mantissa % 2 ^ count != 0⟩ := by
  induction count with
  | zero => simp [HShiftRight.hShiftRight, Nat.repeat, ExtendedMantissa.shiftRightOne, Nat.mod_one]
  | succ count ih =>
      have step : (⟨mantissa, false, false⟩ : ExtendedMantissa) >>> (count + 1 + 1) =
        ((⟨mantissa, false, false⟩ : ExtendedMantissa) >>> (count + 1)).shiftRightOne := rfl
      have lowDigits : (mantissa / 2 ^ count % 2 != 0 || mantissa % 2 ^ count != 0) =
          (mantissa % 2 ^ (count + 1) != 0) := by
        rw [Nat.mod_pow_succ, Bool.eq_iff_iff]
        have := Nat.two_pow_pos count
        simp
        omega
      rw [step, ih, ExtendedMantissa.shiftRightOne, lowDigits, Nat.div_div_eq_div_mul,
        ← Nat.pow_succ]

theorem roundedMantissa_eq (mantissa : Nat) (roundBit stickyBit : Bool) :
    (⟨mantissa, roundBit, stickyBit⟩ : ExtendedMantissa).roundedMantissa =
      if roundBit = false ∨ stickyBit = false ∧ mantissa % 2 = 0 then mantissa
      else mantissa + 1 := by
  cases roundBit with
  | false => cases stickyBit <;> rfl
  | true =>
      cases stickyBit with
      | true => rfl
      | false =>
          change mantissa + mantissa % 2 = _
          simp only [Bool.true_eq_false, false_or, true_and]
          split <;> omega

theorem roundedMantissa_shiftRight (mantissa count : Nat) :
    ((⟨mantissa, false, false⟩ : ExtendedMantissa) >>> count).roundedMantissa =
      roundHalfEven mantissa (2 ^ count) := by
  cases count with
  | zero =>
      have whole := roundHalfEven_multiple mantissa Nat.one_pos
      rw [Nat.mul_one] at whole
      exact whole.symm
  | succ count =>
      have digits : mantissa % 2 ^ (count + 1) =
        mantissa % 2 ^ count + 2 ^ count * (mantissa / 2 ^ count % 2) := Nat.mod_pow_succ
      have power : 2 ^ (count + 1) = 2 * 2 ^ count := Nat.pow_succ'
      have rest := Nat.mod_lt mantissa (Nat.two_pow_pos count)
      rw [shiftRight_eq, roundedMantissa_eq, roundHalfEven]
      -- The first digit cut off tells on which side of the half the rest lies.
      rcases Nat.mod_two_eq_zero_or_one (mantissa / 2 ^ count) with low | high
      · have below : 2 * (mantissa % 2 ^ (count + 1)) < 2 ^ (count + 1) := by
          rw [digits, low]
          omega
        rw [if_pos (.inl (bne_eq_false_iff_eq.mpr low)), if_pos (.inl below)]
      · have notBelow : ¬ 2 * (mantissa % 2 ^ (count + 1)) < 2 ^ (count + 1) := by
          rw [digits, high]
          omega
        have half : 2 * (mantissa % 2 ^ (count + 1)) = 2 ^ (count + 1) ↔
            (mantissa % 2 ^ count != 0) = false := by
          rw [digits, high, bne_eq_false_iff_eq]
          omega
        have roundBit : (mantissa / 2 ^ count % 2 != 0) = true := by
          rw [high]
          rfl
        simp only [roundBit, notBelow, half, Bool.true_eq_false, false_or]

/-- All digits behind the first 53 are cut off. -/
theorem shiftToTargetExponent_eq (mantissa : Nat) {exponent : Int} (large : -1074 ≤ exponent) :
    shiftToTargetExponent .binary64 mantissa exponent .exact =
      ((⟨mantissa, false, false⟩ : ExtendedMantissa) >>> (mantissa.log2 - 52),
        exponent + (mantissa.log2 - 52 : Nat)) := by
  have target : Format.binary64.targetExponent (totalExponent mantissa exponent) =
      max ((mantissa.log2 : Int) + 1 + exponent - (53 : Nat)) (3 - 2 ^ 10 - (53 : Nat)) := rfl
  have shift : (Format.binary64.targetExponent (totalExponent mantissa exponent) -
      exponent).toNat = mantissa.log2 - 52 := by
    rw [target]
    omega
  simp only [shiftToTargetExponent, shiftToExponent, shift, ExtendedMantissa.ofMantissaAndAccuracy]

theorem log2_mul_two_pow {number : Nat} (positive : 0 < number) (count : Nat) :
    (number * 2 ^ count).log2 = number.log2 + count := by
  have start := Nat.log2_self_le (Nat.ne_of_gt positive)
  have stop := Nat.lt_log2_self (n := number)
  have power : 2 ^ (number.log2 + count + 1) = 2 ^ (number.log2 + 1) * 2 ^ count := by ring
  rw [Nat.log2_eq_iff (Nat.ne_of_gt (Nat.mul_pos positive (Nat.two_pow_pos count))), power,
    Nat.pow_add]
  exact ⟨Nat.mul_le_mul_right _ start, Nat.mul_lt_mul_of_pos_right stop (Nat.two_pow_pos _)⟩

/-- The first 53 digits of a number, rounded, after `count` zeros were put behind it. -/
def leadingDigits (number count : Nat) : Nat :=
  roundHalfEven (number * 2 ^ count) (2 ^ (number.log2 + count - 52))

section

variable {number count : Nat}

theorem leadingDigits_bounds (positive : 0 < number) (long : 52 ≤ number.log2 + count) :
    2 ^ 52 ≤ leadingDigits number count ∧ leadingDigits number count ≤ 2 ^ 53 := by
  have unit := Nat.two_pow_pos (number.log2 + count - 52)
  have start := Nat.log2_self_le (Nat.ne_of_gt positive)
  have stop := Nat.le_of_lt (Nat.lt_log2_self (n := number))
  constructor
  · rw [leadingDigits, ← roundHalfEven_multiple (2 ^ 52) unit, ← Nat.pow_add,
      show 52 + (number.log2 + count - 52) = number.log2 + count by omega, Nat.pow_add]
    exact roundHalfEven_mono (Nat.mul_le_mul_right _ start) _
  · rw [leadingDigits, ← roundHalfEven_multiple (2 ^ 53) unit, ← Nat.pow_add,
      show 53 + (number.log2 + count - 52) = number.log2 + 1 + count by omega, Nat.pow_add]
    exact roundHalfEven_mono (Nat.mul_le_mul_right _ stop) _

theorem leadingDigits_size (long : 52 ≤ number.log2 + count) :
    leadingDigits number count * 2 ^ number.log2 = nearestNat number * 2 ^ 52 := by
  by_cases short : number.log2 ≤ 52
  · have zeros : number * 2 ^ count =
        number * 2 ^ (52 - number.log2) * 2 ^ (number.log2 + count - 52) := by
      rw [Nat.mul_assoc, ← Nat.pow_add]
      congr 2
      omega
    rw [leadingDigits, zeros, roundHalfEven_multiple _ (Nat.two_pow_pos _),
      nearestNat_of_log2_le short, Nat.mul_assoc, ← Nat.pow_add]
    congr 2
    omega
  · have unit : 2 ^ (number.log2 + count - 52) = lastPlace number * 2 ^ count := by
      rw [lastPlace, ← Nat.pow_add]
      congr 1
      omega
    rw [leadingDigits, unit, roundHalfEven_scale _ _ (Nat.two_pow_pos _), nearestNat,
      two_pow_log2 (by omega)]
    ring

/-- Digits that rounding made one too many are cut off again, which loses nothing. -/
theorem exists_carried {digits : Nat} (shift : Nat) (long : 2 ^ 52 ≤ digits)
    (short : digits ≤ 2 ^ 53) :
    ∃ mantissa carried : Nat,
      shiftToTargetExponent .binary64 digits (shift - 52) .exact =
        (⟨mantissa, false, false⟩, (carried - 52 : Int)) ∧
      2 ^ 52 ≤ mantissa ∧ mantissa < 2 ^ 53 ∧ carried ≤ shift + 1 ∧
      mantissa * 2 ^ carried = digits * 2 ^ shift := by
  rw [shiftToTargetExponent_eq _ (by omega)]
  rcases Nat.lt_or_eq_of_le short with fits | rfl
  · have length : digits.log2 = 52 := (Nat.log2_eq_iff (by omega)).mpr ⟨long, fits⟩
    rw [length]
    exact ⟨digits, shift, Prod.ext rfl (Int.add_zero _), long, fits, by omega, rfl⟩
  · refine ⟨2 ^ 52, shift + 1, ?_, by decide, by decide, by omega, by ring⟩
    rw [Nat.log2_two_pow]
    refine Prod.ext rfl ?_
    change (shift : Int) - 52 + (1 : Nat) = (shift + 1 : Nat) - 52
    omega

/-- A whole number is rounded to the nearest one of 53 digits, with however many zeros
behind its point it is given. -/
theorem shows_roundWithAccuracy (sign : Sign) (count : Nat) (positive : 0 < number)
    (long : 52 ≤ number.log2 + count) (small : number.log2 ≤ 63) (few : count ≤ 1000) :
    Shows (roundWithAccuracy .binary64 sign (number * 2 ^ count) (-count) .exact)
      (sign.apply (nearestNat number)) := by
  obtain ⟨longDigits, shortDigits⟩ := leadingDigits_bounds positive long
  have size := leadingDigits_size long
  have first : shiftToTargetExponent .binary64 (number * 2 ^ count) (-count) .exact =
      ((⟨number * 2 ^ count, false, false⟩ : ExtendedMantissa) >>> (number.log2 + count - 52),
        (number.log2 - 52 : Int)) := by
    rw [shiftToTargetExponent_eq _ (by omega), log2_mul_two_pow positive]
    congr 1
    omega
  have digits : ((⟨number * 2 ^ count, false, false⟩ : ExtendedMantissa) >>>
      (number.log2 + count - 52)).roundedMantissa = leadingDigits number count :=
    roundedMantissa_shiftRight _ _
  obtain ⟨mantissa, carried, second, longMantissa, shortMantissa, near, same⟩ :=
    exists_carried number.log2 longDigits shortDigits
  unfold roundWithAccuracy
  simp only [first, digits, second]
  rw [dif_neg (by omega)]
  exact .finite sign _ longMantissa shortMantissa (by omega) (same.trans size)

end

/-! ## Conversion -/

/-- The unpacked one. -/
def one : UnpackedFloat := .finite .positive (2 ^ 52) (-52) (by decide)

theorem Shows.mul_one {float : UnpackedFloat} {value : Int} (shows : Shows float value)
    (small : value.natAbs ≤ 2 ^ 53) : Shows (UnpackedFloat.mul .binary64 float one) value := by
  cases shows with
  | zero sign => exact .zero _
  | @finite sign mantissa shift value positive long short low size =>
      have value_le : value ≤ 2 ^ 53 := by
        cases sign <;> simpa [Sign.apply] using small
      have value_gt := value_pos positive size
      have digits : mantissa * 2 ^ 52 = value * 2 ^ (104 - shift) := by
        apply Nat.eq_of_mul_eq_mul_right (Nat.two_pow_pos shift)
        have zeros : 2 ^ (104 - shift) * 2 ^ shift = 2 ^ 52 * 2 ^ 52 := by
          rw [← Nat.pow_add, ← Nat.pow_add]
          congr 1
          omega
        rw [Nat.mul_right_comm, size, Nat.mul_assoc value, Nat.mul_assoc value, zeros]
      have length : value.log2 + (104 - shift) = mantissa.log2 + 52 := by
        rw [← log2_mul_two_pow (by omega), ← digits, log2_mul_two_pow positive]
      have low : value.log2 < 64 := (Nat.log2_lt (by omega)).mpr (by omega)
      have nonzero : 0 < value := by omega
      have rounded := shows_roundWithAccuracy sign (104 - shift) nonzero
        (by omega) (by omega) (by omega)
      rw [nearestNat_of_small value_le] at rounded
      have sameSign : sign * .positive = sign := by cases sign <;> rfl
      have sameExponent : (shift : Int) - 52 + -52 = -(104 - shift : Nat) := by omega
      change Shows (roundWithAccuracy .binary64 (sign * .positive) (mantissa * 2 ^ 52)
        ((shift : Int) - 52 + -52) .exact) _
      rw [sameSign, digits, sameExponent]
      exact rounded

/-- Numbers of at most 53 digits are converted digit by digit. -/
theorem shows_toFloat {number : Nat} (positive : 0 < number) (small : number < 2 ^ 53) :
    Shows number.toUInt64.toFloat.toModel.unpack number := by
  have length : number.log2 < 53 := (Nat.log2_lt (by omega)).mpr small
  have target : Format.binary64.targetExponent (totalExponent number 0) = number.log2 - 52 := by
    change max ((number.log2 : Int) + 1 + 0 - (53 : Nat)) (3 - 2 ^ 10 - (53 : Nat)) = _
    omega
  have shows := shows_roundWithAccuracy .positive (52 - number.log2) positive
    (by omega) (by omega) (by omega)
  rw [nearestNat_of_small (by omega)] at shows
  have converted : number.toUInt64.toFloat.toModel = Float.Model.pack
      (roundWithAccuracy .binary64 .positive (number * 2 ^ (52 - number.log2))
        (-(52 - number.log2 : Nat)) .exact) := by
    have word : number.toUInt64.toNat = number :=
      UInt64.toNat_ofNat_of_lt (by simp only [UInt64.size]; omega)
    have sign : compare (number : Int) 0 = .gt := Int.compare_eq_gt.mpr (by omega)
    have shift : (-((number.log2 : Int) - 52)).toNat = 52 - number.log2 := by omega
    change Float.Model.pack
      (UnpackedFloat.normalize .binary64 number.toUInt64.toNat 0 .positive) = _
    rw [word]
    simp only [UnpackedFloat.normalize, sign, UnpackedFloat.round, Int.toNat_natCast, target,
      decreaseExponent, Int.zero_sub, shift, Nat.shiftLeft_eq]
  rw [converted, shows.packed]
  exact shows

theorem shows_ofNat {number : Nat} (small : number < 2 ^ 64) :
    Shows (Float.ofNat number).toModel.unpack (nearestNat number) := by
  rcases Nat.eq_zero_or_pos number with rfl | positive
  · exact .zero .positive
  by_cases short : number < 2 ^ 53
  · have product : Float.ofNat number =
        number.toUInt64.toFloat * Float.ofBits 0x3FF0000000000000 := by
      change Float.ofScientific number false 0 = _
      unfold Float.ofScientific
      rw [dif_pos ⟨short, by decide⟩]
      rfl
    have shows := (shows_toFloat positive short).mul_one (by omega)
    rw [product, nearestNat_of_small (by omega)]
    change Shows (Float.Model.pack
      (UnpackedFloat.mul .binary64 number.toUInt64.toFloat.toModel.unpack one)).unpack number
    rw [shows.packed]
    exact shows
  · have scientific : Float.ofNat number = Float.ofModel (Float.Model.ofScientific number 0) := by
      change Float.ofScientific number false 0 = _
      unfold Float.ofScientific
      rw [dif_neg (fun both => short both.1)]
      rfl
    have product : UnpackedFloat.ofScientific .binary64 number 0 =
        roundWithAccuracy .binary64 .positive (number * 2 ^ 53) (-(53 : Nat)) .exact := by
      unfold UnpackedFloat.ofScientific
      rw [dif_neg (by omega), if_neg (by decide), if_neg (by simp only; omega), if_pos (by decide)]
      have digits : Format.binary64.mantissaBits = 53 := rfl
      have sign : Sign.positive * Sign.positive = .positive := rfl
      simp only [UnpackedFloat.mul, digits, sign, Nat.shiftLeft_eq, Int.toNat_zero, Nat.pow_zero,
        Nat.mul_one, Int.add_zero]
    have lower : 53 ≤ number.log2 := (Nat.le_log2 (by omega)).mpr (by omega)
    have upper : number.log2 < 64 := (Nat.log2_lt (by omega)).mpr small
    have shows := shows_roundWithAccuracy .positive 53 positive
      (by omega) (by omega) (by omega)
    rw [scientific]
    change Shows (Float.Model.pack (UnpackedFloat.ofScientific .binary64 number 0)).unpack _
    rw [product, shows.packed]
    exact shows

theorem shows_ofInt64 (number : Int64) :
    Shows (ofInt64 number).toModel.unpack (nearest number.toInt) := by
  have lower := number.le_toInt
  have upper := number.toInt_lt
  unfold ofInt64
  cases value : number.toInt with
  | ofNat size =>
      have rounded : nearest (.ofNat size) = nearestNat size := by
        cases size with
        | zero => rfl
        | succ size => exact Int.one_mul _
      rw [value, Int.ofNat_eq_natCast] at upper
      rw [rounded]
      exact shows_ofNat (by omega)
  | negSucc size =>
      rw [value, Int.negSucc_eq] at lower
      have small : size + 1 < 2 ^ 64 := by omega
      have shows := (shows_ofNat small).neg
      have rounded : nearest (.negSucc size) = -nearestNat (size + 1) := Int.neg_one_mul _
      rw [rounded]
      change Shows (Float.Model.pack (Float.ofNat (size + 1)).toModel.unpack.neg).unpack _
      rw [shows.packed]
      exact shows

theorem Shows.isNaN_eq_false {float : UnpackedFloat} {value : Int} (shows : Shows float value) :
    float.isNaN = false := by
  cases shows <;> rfl

theorem ofInt64_isNaN (number : Int64) : (ofInt64 number).isNaN = false :=
  (shows_ofInt64 number).isNaN_eq_false

/-- The reals of two integers are ordered like the numbers that these are rounded to. -/
theorem order_ofInt64 (left right : Int64) :
    order (ofInt64 left) (ofInt64 right) =
      some (compare (nearest left.toInt) (nearest right.toInt)) := by
  rw [order_eq_compare]
  exact (shows_ofInt64 left).compare (shows_ofInt64 right)

theorem ofInt64_le_iff (left right : Int64) :
    ofInt64 left ≤ ofInt64 right ↔ nearest left.toInt ≤ nearest right.toInt := by
  rw [le_iff_order, order_ofInt64]
  simp [Int.isLE_compare]

end FlowScript.Real
