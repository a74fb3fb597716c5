import FlowScript.Real.Parts
import Mathlib.Order.Monotone.Basic
import Mathlib.Tactic.Ring

/-!
# Whole numbers of 53 digits

A real has 53 binary digits. A whole number with more of them is rounded to the nearest
one that has no more, half a unit of the last place to an even digit. Rounding keeps the
order of whole numbers, though different ones may become the same, and changes none up to
`2 ^ 53`.
-/

set_option autoImplicit false

namespace FlowScript.Real

/-- The number of units next to a number; half a unit goes to the even neighbour. -/
def roundHalfEven (number unit : Nat) : Nat :=
  if 2 * (number % unit) < unit ∨ 2 * (number % unit) = unit ∧ number / unit % 2 = 0 then
    number / unit
  else number / unit + 1

theorem roundHalfEven_multiple (count : Nat) {unit : Nat} (positive : 0 < unit) :
    roundHalfEven (count * unit) unit = count := by
  simp [roundHalfEven, positive]

theorem roundHalfEven_scale (number unit : Nat) {factor : Nat} (positive : 0 < factor) :
    roundHalfEven (number * factor) (unit * factor) = roundHalfEven number unit := by
  have less : 2 * (number % unit * factor) < unit * factor ↔ 2 * (number % unit) < unit := by
    rw [← Nat.mul_assoc, Nat.mul_lt_mul_right positive]
  have same : 2 * (number % unit * factor) = unit * factor ↔ 2 * (number % unit) = unit := by
    rw [← Nat.mul_assoc, Nat.mul_left_inj (Nat.ne_of_gt positive)]
  simp only [roundHalfEven, Nat.mul_mod_mul_right, Nat.mul_div_mul_right _ _ positive, less, same]

theorem roundHalfEven_mono {smaller larger : Nat} (le : smaller ≤ larger) (unit : Nat) :
    roundHalfEven smaller unit ≤ roundHalfEven larger unit := by
  have quotients : smaller / unit ≤ larger / unit := Nat.div_le_div_right le
  rcases Nat.lt_or_eq_of_le quotients with apart | together
  · unfold roundHalfEven
    split <;> split <;> omega
  · have remainders : smaller % unit ≤ larger % unit := by
      have smallerParts := Nat.mod_add_div smaller unit
      have largerParts := Nat.mod_add_div larger unit
      rw [together] at smallerParts
      omega
    unfold roundHalfEven
    rw [together]
    split <;> split <;> omega

/-- What the last of 53 binary digits of a number counts. -/
def lastPlace (number : Nat) : Nat := 2 ^ (number.log2 - 52)

theorem lastPlace_pos (number : Nat) : 0 < lastPlace number := Nat.two_pow_pos _

/-- The number of at most 53 binary digits next to a number. -/
def nearestNat (number : Nat) : Nat :=
  roundHalfEven number (lastPlace number) * lastPlace number

/-- The whole number of at most 53 binary digits next to a whole number. -/
def nearest (number : Int) : Int := number.sign * nearestNat number.natAbs

/-- Rounding passes no multiple of the last place. -/
theorem nearestNat_le {number count : Nat} (le : number ≤ count * lastPlace number) :
    nearestNat number ≤ count * lastPlace number := by
  apply Nat.mul_le_mul_right
  rw [← roundHalfEven_multiple count (lastPlace_pos number)]
  exact roundHalfEven_mono le _

theorem le_nearestNat {number count : Nat} (le : count * lastPlace number ≤ number) :
    count * lastPlace number ≤ nearestNat number := by
  apply Nat.mul_le_mul_right
  rw [← roundHalfEven_multiple count (lastPlace_pos number)]
  exact roundHalfEven_mono le _

/-- A power of two is a multiple of the last place of the numbers that begin there. -/
theorem two_pow_log2 {number : Nat} (long : 52 ≤ number.log2) :
    2 ^ number.log2 = 2 ^ 52 * lastPlace number := by
  rw [lastPlace, ← Nat.pow_add]
  congr 1
  omega

theorem nearestNat_of_log2_le {number : Nat} (short : number.log2 ≤ 52) :
    nearestNat number = number := by
  have place : lastPlace number = 1 := by simp [lastPlace, short]
  have rounded := roundHalfEven_multiple number Nat.one_pos
  rw [Nat.mul_one] at rounded
  rw [nearestNat, place, rounded, Nat.mul_one]

theorem nearestNat_of_small {number : Nat} (small : number ≤ 2 ^ 53) :
    nearestNat number = number := by
  rcases Nat.lt_or_eq_of_le small with less | rfl
  · apply nearestNat_of_log2_le
    by_cases zero : number = 0
    · simp [zero]
    · have := (Nat.log2_lt zero).mpr less
      omega
  · have place : lastPlace (2 ^ 53) = 2 := by
      rw [lastPlace, Nat.log2_two_pow]
      rfl
    rw [nearestNat, place]
    exact congrArg (· * 2) (roundHalfEven_multiple (2 ^ 52) Nat.two_pos)

theorem nearestNat_mono : Monotone nearestNat := by
  intro smaller larger le
  by_cases zero : smaller = 0
  · subst zero
    exact Nat.zero_le _
  have lengths : smaller.log2 ≤ larger.log2 := by
    rw [Nat.le_log2 (by omega)]
    exact Nat.le_trans (Nat.log2_self_le zero) le
  rcases Nat.lt_or_eq_of_le lengths with shorter | sameLength
  · by_cases short : larger.log2 ≤ 52
    · rw [nearestNat_of_log2_le short, nearestNat_of_log2_le (by omega)]
      exact le
    -- A power of two that both keep to lies between the numbers.
    have below : smaller ≤ 2 ^ (smaller.log2 + 1) := Nat.le_of_lt Nat.lt_log2_self
    have above : 2 ^ larger.log2 ≤ nearestNat larger := by
      rw [two_pow_log2 (by omega)]
      exact le_nearestNat (by
        rw [← two_pow_log2 (by omega)]
        exact Nat.log2_self_le (by omega))
    have between : 2 ^ (smaller.log2 + 1) ≤ 2 ^ larger.log2 :=
      Nat.pow_le_pow_right Nat.two_pos shorter
    by_cases short' : smaller.log2 ≤ 52
    · rw [nearestNat_of_log2_le short']
      omega
    have power : 2 ^ (smaller.log2 + 1) = 2 ^ 53 * lastPlace smaller := by
      rw [Nat.pow_succ, two_pow_log2 (by omega)]
      ring
    have nearestBelow : nearestNat smaller ≤ 2 ^ (smaller.log2 + 1) := by
      rw [power] at below ⊢
      exact nearestNat_le below
    omega
  · have place : lastPlace smaller = lastPlace larger := by
      rw [lastPlace, lastPlace, sameLength]
    rw [nearestNat, nearestNat, place]
    exact Nat.mul_le_mul_right _ (roundHalfEven_mono le _)

/-- Rounding keeps the order of whole numbers. -/
theorem nearest_mono {smaller larger : Int} (le : smaller ≤ larger) :
    nearest smaller ≤ nearest larger := by
  unfold nearest
  rcases Int.lt_trichotomy smaller 0 with negative | rfl | positive
  · rw [Int.sign_eq_neg_one_of_neg negative]
    rcases Int.lt_trichotomy larger 0 with negative' | rfl | positive'
    · have sizes := nearestNat_mono (show larger.natAbs ≤ smaller.natAbs by omega)
      rw [Int.sign_eq_neg_one_of_neg negative']
      omega
    · simp
    · rw [Int.sign_eq_one_of_pos positive']
      omega
  · simp only [Int.sign_zero, Int.zero_mul]
    exact Int.mul_nonneg (Int.sign_nonneg_iff.mpr le) (Int.natCast_nonneg _)
  · have sizes := nearestNat_mono (show smaller.natAbs ≤ larger.natAbs by omega)
    rw [Int.sign_eq_one_of_pos positive, Int.sign_eq_one_of_pos (Int.lt_of_lt_of_le positive le)]
    omega

theorem nearest_of_small {number : Int} (small : number.natAbs ≤ 2 ^ 53) :
    nearest number = number := by
  rw [nearest, nearestNat_of_small small, Int.sign_mul_natAbs]

end FlowScript.Real
