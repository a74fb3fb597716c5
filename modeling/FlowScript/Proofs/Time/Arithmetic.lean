import FlowScript.Proofs.Storage.Filling
import FlowScript.Proofs.Time.Length
import FlowScript.Proofs.Value.Operator

/-!
# Duration arithmetic

Sums, differences, quotients and comparisons of durations are exact where the lengths are
words. A longer duration counts as the longest one that is measured, and results that are
made from it are not exact. Products are exact always.
-/

set_option autoImplicit false

namespace FlowScript

theorem Store.duration?_eq_some_iff {store : Store} {value : Value} {duration : Duration} :
    store.duration? value = some duration ↔ store.scalar? value = some (.duration duration) := by
  unfold Store.duration?
  cases store.scalar? value with
  | none => simp
  | some scalar => cases scalar <;> simp

/-- A result of an operator on single values comes from the operation it stands for. -/
theorem scalarResult_eq_ok {Fault Result : Type} {outcome : Except Fault Result}
    {toCause : Fault → Cause} {toScalar : Result → Scalar} {scalar : Scalar}
    (computed : some ((outcome.mapError toCause).map toScalar) = some (.ok scalar)) :
    ∃ result, outcome = .ok result ∧ scalar = toScalar result := by
  cases outcome with
  | error fault => cases computed
  | ok result =>
      cases computed
      exact ⟨result, rfl, rfl⟩

namespace Value

section

variable {store final : Store} {left right factor result : Value} {first second : Duration}
  {number : Int64}

theorem Gives.sum (gives : Gives store .plus left right result final)
    (leftDuration : store.duration? left = some first)
    (rightDuration : store.duration? right = some second) :
    ∃ sum, final.duration? result = some sum ∧
      sum.exactMillis = first.millis + second.millis := by
  obtain ⟨scalar, computed, found, -⟩ := gives.computed
    (Store.duration?_eq_some_iff.mp leftDuration) (Store.duration?_eq_some_iff.mp rightDuration)
  obtain ⟨sum, added, rfl⟩ := scalarResult_eq_ok computed
  exact ⟨sum, Store.duration?_eq_some_iff.mpr found, Duration.add_exact added⟩

theorem Gives.difference (gives : Gives store .minus left right result final)
    (leftDuration : store.duration? left = some first)
    (rightDuration : store.duration? right = some second) :
    ∃ difference, final.duration? result = some difference ∧ second.millis ≤ first.millis ∧
      difference.exactMillis = first.millis - second.millis := by
  obtain ⟨scalar, computed, found, -⟩ := gives.computed
    (Store.duration?_eq_some_iff.mp leftDuration) (Store.duration?_eq_some_iff.mp rightDuration)
  obtain ⟨difference, subtracted, rfl⟩ := scalarResult_eq_ok computed
  rcases Duration.sub_cases first second with ⟨-, failed⟩ | ⟨other, succeeded, le, length⟩
  · cases failed.symm.trans subtracted
  · cases succeeded.symm.trans subtracted
    exact ⟨difference, Store.duration?_eq_some_iff.mpr found, le, length⟩

theorem refuses_difference_iff (leftDuration : store.duration? left = some first)
    (rightDuration : store.duration? right = some second) :
    Refuses store .minus left right .negativeDuration ↔ first.millis < second.millis := by
  have leftScalar := Store.duration?_eq_some_iff.mp leftDuration
  have rightScalar := Store.duration?_eq_some_iff.mp rightDuration
  have computed : Scalar.binary .minus (.duration first) (.duration second) =
      some (((first.sub second).mapError (·.cause)).map .duration) := rfl
  rcases Duration.sub_cases first second with ⟨less, failed⟩ | ⟨difference, succeeded, le, -⟩
  · rw [failed] at computed
    exact iff_of_true (refuses_of_error leftScalar rightScalar computed) less
  · rw [succeeded] at computed
    obtain ⟨result, final, gives, -⟩ := exists_gives leftScalar rightScalar computed
    exact iff_of_false (gives.not_refuses _) (Nat.not_lt_of_le le)

theorem Gives.product (gives : Gives store .times left factor result final)
    (leftDuration : store.duration? left = some first)
    (factorInteger : store.integer? factor = some number) :
    ∃ product, final.duration? result = some product ∧
      (product.exactMillis : Int) = first.exactMillis * number.toInt := by
  obtain ⟨scalar, computed, found, -⟩ := gives.computed
    (Store.duration?_eq_some_iff.mp leftDuration) (integer?_scalar factorInteger)
  obtain ⟨product, scaled, rfl⟩ := scalarResult_eq_ok computed
  obtain ⟨nonnegative, length⟩ := Duration.scale_exact scaled
  refine ⟨product, Store.duration?_eq_some_iff.mpr found, ?_⟩
  rw [length, Int.natCast_mul, Int.toNat_of_nonneg nonnegative]

theorem Gives.quotient (gives : Gives store .divide left factor result final)
    (leftDuration : store.duration? left = some first)
    (factorInteger : store.integer? factor = some number) :
    ∃ quotient, final.duration? result = some quotient ∧
      (quotient.exactMillis : Int) =
        if number.toInt ∣ first.count.toNat then first.exactMillis / number.toInt
        else first.millis / number.toInt := by
  obtain ⟨scalar, computed, found, -⟩ := gives.computed
    (Store.duration?_eq_some_iff.mp leftDuration) (integer?_scalar factorInteger)
  obtain ⟨quotient, parted, rfl⟩ := scalarResult_eq_ok computed
  obtain ⟨positive, length⟩ := Duration.split_exact parted
  obtain ⟨divisor, whole⟩ := Int.eq_ofNat_of_zero_le (Int.le_of_lt positive)
  refine ⟨quotient, Store.duration?_eq_some_iff.mpr found, ?_⟩
  rw [length, whole]
  simp only [Int.toNat_natCast, Int.natCast_dvd_natCast]
  split <;> exact Int.natCast_ediv _ _

theorem comparesLike_millis (leftDuration : store.duration? left = some first)
    (rightDuration : store.duration? right = some second) :
    ComparesLike store left right first.millis second.millis := by
  apply comparesLike_of_order
  intro op answer decided
  rw [binaryResult?_scalar (Store.duration?_eq_some_iff.mp leftDuration)
    (Store.duration?_eq_some_iff.mp rightDuration)]
  rw [Real.compare_natCast] at decided
  cases op <;> cases decided <;> rfl

/-- Durations are compared like their lengths unless these differ only beyond the words. -/
theorem comparesLike_exactMillis_iff (leftDuration : store.duration? left = some first)
    (rightDuration : store.duration? right = some second) :
    ComparesLike store left right first.exactMillis second.exactMillis ↔
      first.exactMillis < maxWord ∨ second.exactMillis < maxWord ∨
        first.exactMillis = second.exactMillis := by
  have compares := comparesLike_millis leftDuration rightDuration
  constructor
  · intro like
    have cut := (compares.equal (decide ((first.millis : Int) = second.millis))).mpr rfl
    have same := decide_eq_decide.mp ((like.equal _).mp cut)
    unfold Duration.millis at same
    omega
  · intro distinct
    apply compares.congr <;> unfold Duration.millis <;> omega

/-- Sums and differences of durations are exact where both are measured, a difference also
where they are equally long, products always, and quotients where the duration is measured,
where its count divides evenly, or where the missing length makes no difference. Taking a
longer duration from a shorter one fails unless both reach the longest that is measured, and
durations are compared like their lengths unless both reach it and differ. -/
theorem durations_exact_iff {factor : Value} {number : Int64}
    (leftDuration : store.duration? left = some first)
    (rightDuration : store.duration? right = some second)
    (factorInteger : store.integer? factor = some number) :
    (∀ result final, Gives store .plus left right result final →
      ∃ sum, final.duration? result = some sum ∧
        (sum.exactMillis = first.exactMillis + second.exactMillis ↔
          first.IsMeasured ∧ second.IsMeasured)) ∧
    (∀ result final, Gives store .minus left right result final →
      ∃ difference, final.duration? result = some difference ∧
        (second.exactMillis ≤ first.exactMillis ∧
            difference.exactMillis = first.exactMillis - second.exactMillis ↔
          first.IsMeasured ∧ second.IsMeasured ∨ first.exactMillis = second.exactMillis)) ∧
    (first.exactMillis < second.exactMillis →
      (Refuses store .minus left right .negativeDuration ↔ first.exactMillis < maxWord)) ∧
    (∀ result final, Gives store .times left factor result final →
      ∃ product, final.duration? result = some product ∧
        (product.exactMillis : Int) = first.exactMillis * number.toInt) ∧
    (∀ result final, Gives store .divide left factor result final →
      ∃ quotient, final.duration? result = some quotient ∧
        ((quotient.exactMillis : Int) = first.exactMillis / number.toInt ↔
          first.IsMeasured ∨ number.toInt ∣ first.count.toNat ∨
            (maxWord : Int) / number.toInt = first.exactMillis / number.toInt)) ∧
    (ComparesLike store left right first.exactMillis second.exactMillis ↔
      first.exactMillis < maxWord ∨ second.exactMillis < maxWord ∨
        first.exactMillis = second.exactMillis) := by
  refine ⟨fun result final gives => ?_, fun result final gives => ?_, fun less => ?_,
    fun result final gives => gives.product leftDuration factorInteger,
    fun result final gives => ?_, comparesLike_exactMillis_iff leftDuration rightDuration⟩
  · obtain ⟨sum, found, length⟩ := gives.sum leftDuration rightDuration
    refine ⟨sum, found, ?_⟩
    unfold Duration.millis at length
    unfold Duration.IsMeasured
    omega
  · obtain ⟨difference, found, le, length⟩ := gives.difference leftDuration rightDuration
    refine ⟨difference, found, ?_⟩
    unfold Duration.millis at le length
    unfold Duration.IsMeasured
    omega
  · rw [refuses_difference_iff leftDuration rightDuration]
    unfold Duration.millis
    omega
  · obtain ⟨quotient, found, length⟩ := gives.quotient leftDuration factorInteger
    refine ⟨quotient, found, ?_⟩
    rw [length]
    split
    · next divides => exact iff_of_true rfl (.inr (.inl divides))
    · next uneven =>
        by_cases measured : first.IsMeasured
        · rw [Duration.millis_of_isMeasured measured]
          exact iff_of_true rfl (.inl measured)
        · rw [Duration.millis_of_not_isMeasured measured]
          simp [measured, uneven]

end

/-- A month, a week and the number seven. -/
def monthAndWeek : Store :=
  ⟨#[.scalar (.duration ⟨1, .month⟩), .scalar (.duration ⟨1, .week⟩), .scalar (.integer 7)], 0⟩

/-- The sum and the quotient are counted in milliseconds, for a week does not divide a month
and a month is not a multiple of seven. -/
theorem monthAndWeek_exact :
    (∃ result final sum,
      Gives monthAndWeek .plus (.stored .duration 0) (.stored .duration 1) result final ∧
        final.duration? result = some sum ∧ sum.exactMillis = 37 * 86400000) ∧
    (∃ result final quotient,
      Gives monthAndWeek .divide (.stored .duration 0) (.stored .integer 2) result final ∧
        final.duration? result = some quotient ∧ quotient.exactMillis = 370285714) ∧
    ComparesLike monthAndWeek (.stored .duration 0) (.stored .duration 1)
      (30 * 86400000) (7 * 86400000) := by
  have month : (⟨1, .month⟩ : Duration).IsMeasured := by decide
  have week : (⟨1, .week⟩ : Duration).IsMeasured := by decide
  have monthFound : monthAndWeek.duration? (.stored .duration 0) = some ⟨1, .month⟩ := rfl
  have weekFound : monthAndWeek.duration? (.stored .duration 1) = some ⟨1, .week⟩ := rfl
  have sevenFound : monthAndWeek.integer? (.stored .integer 2) = some 7 := rfl
  obtain ⟨sums, -, -, -, quotients, compares⟩ :=
    durations_exact_iff monthFound weekFound sevenFound
  refine ⟨?_, ?_, compares.mpr (.inl (by decide))⟩
  · obtain ⟨sum, found, exact_iff⟩ := sums _ _ rfl
    exact ⟨_, _, sum, rfl, found, exact_iff.mpr ⟨month, week⟩⟩
  · obtain ⟨quotient, found, exact_iff⟩ := quotients _ _ rfl
    exact ⟨_, _, quotient, rfl, found, Int.ofNat_inj.mp (exact_iff.mpr (.inl month))⟩

/-- The greatest numbers of weeks and of days, and a millisecond. -/
def longest : Store :=
  ⟨#[.scalar (.duration ⟨18446744073709551615, .week⟩),
    .scalar (.duration ⟨18446744073709551615, .day⟩), .scalar (.duration ⟨1, .ms⟩)], 0⟩

/-- The weeks are longer than the days but equal to them, and there is a difference between
the weeks and a millisecond that is not exact. -/
theorem longest_not_exact :
    Decides longest .equal (.stored .duration 0) (.stored .duration 1) true ∧
      (⟨18446744073709551615, .day⟩ : Duration).exactMillis <
        (⟨18446744073709551615, .week⟩ : Duration).exactMillis ∧
    ∃ result final difference,
      Gives longest .minus (.stored .duration 0) (.stored .duration 2) result final ∧
        final.duration? result = some difference ∧
        difference.exactMillis ≠ (⟨18446744073709551615, .week⟩ : Duration).exactMillis - 1 := by
  have weeks : longest.duration? (.stored .duration 0) =
      some ⟨18446744073709551615, .week⟩ := rfl
  have gives : Gives longest .minus (.stored .duration 0) (.stored .duration 2) _ _ := rfl
  obtain ⟨difference, found, -, length⟩ := gives.difference weeks rfl
  refine ⟨((comparesLike_millis weeks rfl).equal true).mpr (by decide), by decide, _, _,
    difference, gives, found, ?_⟩
  rw [length]
  decide

end Value

end FlowScript
