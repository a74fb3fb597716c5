import FlowScript.Time.Duration

/-!
# Lengths of durations

Sums, differences, quotients and comparisons read the length of a duration in milliseconds,
which stops at the largest word. They are exact on what it reads; products are made from
the count and are always exact.
-/

set_option autoImplicit false

namespace FlowScript.Duration

/-- The length in milliseconds is a word. -/
def IsMeasured (duration : Duration) : Prop := duration.exactMillis ≤ maxWord

instance (duration : Duration) : Decidable duration.IsMeasured :=
  inferInstanceAs (Decidable (duration.exactMillis ≤ maxWord))

theorem millis_le (duration : Duration) : duration.millis ≤ maxWord := Nat.min_le_right _ _

theorem millis_of_isMeasured {duration : Duration} (measured : duration.IsMeasured) :
    duration.millis = duration.exactMillis := Nat.min_eq_left measured

theorem millis_of_not_isMeasured {duration : Duration} (long : ¬ duration.IsMeasured) :
    duration.millis = maxWord := Nat.min_eq_right (Nat.le_of_not_le long)

theorem exactMillis_ofCount? {unit : TimeUnit} {count : Nat} {duration : Duration}
    (fits : ofCount? unit count = some duration) : duration.exactMillis = count * unit.millis := by
  obtain ⟨word, found, rfl⟩ := Option.map_eq_some_iff.mp fits
  exact congrArg (· * unit.millis) (toNat_of_wordOfNat? found)

theorem ofCount?_isSome {count : Nat} (unit : TimeUnit) (fits : count ≤ maxWord) :
    ∃ duration, ofCount? unit count = some duration := by
  simp [ofCount?, wordOfNat?, fits]

/-! ## Sums and differences -/

theorem commonUnit_dvd (left right : Duration) :
    (left.commonUnit right).millis ∣ left.millis ∧
      (left.commonUnit right).millis ∣ right.millis := by
  unfold commonUnit
  dsimp only
  split
  · next both => exact ⟨Nat.dvd_of_mod_eq_zero both.1, Nat.dvd_of_mod_eq_zero both.2⟩
  · exact ⟨Nat.one_dvd _, Nat.one_dvd _⟩

theorem add_exact {left right sum : Duration} (added : left.add right = .ok sum) :
    sum.exactMillis = left.millis + right.millis := by
  obtain ⟨leftWhole, rightWhole⟩ := commonUnit_dvd left right
  unfold add at added
  dsimp only at added
  split at added
  · next fits =>
      cases added
      rw [exactMillis_ofCount? fits, Nat.add_mul, Nat.div_mul_cancel leftWhole,
        Nat.div_mul_cancel rightWhole]
  · cases added

/-- A difference exists unless the subtrahend is longer. -/
theorem sub_cases (left right : Duration) :
    (left.millis < right.millis ∧ left.sub right = .error .negative) ∨
      ∃ difference, left.sub right = .ok difference ∧ right.millis ≤ left.millis ∧
        difference.exactMillis = left.millis - right.millis := by
  obtain ⟨leftWhole, rightWhole⟩ := commonUnit_dvd left right
  have positive := (left.commonUnit right).millis_pos
  unfold sub
  dsimp only
  by_cases negative : left.millis / (left.commonUnit right).millis <
      right.millis / (left.commonUnit right).millis
  · rw [if_pos negative]
    refine .inl ⟨?_, rfl⟩
    have := (Nat.mul_lt_mul_right positive).mpr negative
    rwa [Nat.div_mul_cancel leftWhole, Nat.div_mul_cancel rightWhole] at this
  · rw [if_neg negative]
    have small : left.millis / (left.commonUnit right).millis -
        right.millis / (left.commonUnit right).millis ≤ maxWord :=
      Nat.le_trans (Nat.sub_le _ _) (Nat.le_trans (Nat.div_le_self _ _) left.millis_le)
    obtain ⟨difference, fits⟩ := ofCount?_isSome (left.commonUnit right) small
    rw [fits]
    refine .inr ⟨difference, rfl, ?_, ?_⟩
    · have := Nat.mul_le_mul_right (left.commonUnit right).millis (Nat.le_of_not_lt negative)
      rwa [Nat.div_mul_cancel leftWhole, Nat.div_mul_cancel rightWhole] at this
    · rw [exactMillis_ofCount? fits, Nat.sub_mul, Nat.div_mul_cancel leftWhole,
        Nat.div_mul_cancel rightWhole]

/-! ## Products and quotients -/

theorem scale_exact {duration product : Duration} {factor : Int}
    (scaled : duration.scale factor = .ok product) :
    0 ≤ factor ∧ product.exactMillis = duration.exactMillis * factor.toNat := by
  unfold scale at scaled
  split at scaled
  · cases scaled
  · next nonnegative =>
      split at scaled
      · next fits =>
          cases scaled
          refine ⟨by omega, ?_⟩
          rw [exactMillis_ofCount? fits, exactMillis, Nat.mul_right_comm]
      · cases scaled

/-- Counts that divide evenly are divided, and lengths otherwise. -/
theorem split_exact {duration quotient : Duration} {divisor : Int}
    (parted : duration.split divisor = .ok quotient) :
    0 < divisor ∧ quotient.exactMillis =
      if divisor.toNat ∣ duration.count.toNat then duration.exactMillis / divisor.toNat
      else duration.millis / divisor.toNat := by
  unfold split at parted
  split at parted
  · cases parted
  split at parted
  · cases parted
  next nonnegative nonzero =>
    have word : ∀ number : Nat, number ≤ maxWord →
        (UInt64.ofNat (number / divisor.toNat)).toNat = number / divisor.toNat := by
      intro number small
      have := Nat.div_le_self number divisor.toNat
      apply UInt64.toNat_ofNat_of_lt
      simp only [maxWord, UInt64.size] at *
      omega
    refine ⟨by omega, ?_⟩
    dsimp only at parted
    split at parted
    · next even =>
        have divides := Nat.dvd_of_mod_eq_zero even
        cases parted
        rw [if_pos divides, exactMillis, exactMillis,
          word _ (by have := duration.count.toNat_lt; simp [maxWord, UInt64.size]; omega)]
        exact Nat.div_mul_right_comm divides _
    · next uneven =>
        cases parted
        rw [if_neg fun divides => uneven (Nat.mod_eq_zero_of_dvd divides)]
        exact (Nat.mul_one _).trans (word _ duration.millis_le)

end FlowScript.Duration
