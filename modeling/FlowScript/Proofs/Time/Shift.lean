import FlowScript.Proofs.Time.Arithmetic

/-!
# Shifts of points in time

Away from leap seconds a shift moves a point in time by exactly the length of the duration,
or fails. So shifts can be undone and measured.
-/

set_option autoImplicit false

namespace FlowScript

namespace Instant

/-- In the calendar, and not in a leap second. -/
structure IsOrdinary (instant : Instant) : Prop where
  nanos : instant.nanos < nanosPerSecond
  inRange : instant.inRange = true

variable {instant moved later earlier : Instant} {millis : Int} {duration : Duration}

/-! ## Instants as numbers -/

theorem nanosPerSecond_pos : (0 : Int) < nanosPerSecond := by decide

theorem toNanos_ofNanos (nanos : Int) : (ofNanos nanos).toNanos = nanos := by
  have remainder : 0 ≤ nanos.fmod nanosPerSecond := Int.fmod_nonneg_of_pos _ nanosPerSecond_pos
  simp only [toNanos, ofNanos, Int.toNat_of_nonneg remainder]
  exact Int.fdiv_mul_add_fmod _ _

theorem nanos_ofNanos (nanos : Int) : (ofNanos nanos).nanos < nanosPerSecond := by
  have remainder : 0 ≤ nanos.fmod nanosPerSecond := Int.fmod_nonneg_of_pos _ nanosPerSecond_pos
  have small : nanos.fmod nanosPerSecond < nanosPerSecond := Int.fmod_lt_of_pos _ nanosPerSecond_pos
  simp only [ofNanos]
  omega

/-- Outside leap seconds instants are counted by their nanoseconds. -/
theorem eq_of_toNanos (laterNanos : later.nanos < nanosPerSecond)
    (earlierNanos : earlier.nanos < nanosPerSecond) (same : later.toNanos = earlier.toNanos) :
    later = earlier := by
  obtain ⟨laterSeconds, laterNanos⟩ := later
  obtain ⟨earlierSeconds, earlierNanos⟩ := earlier
  simp only [toNanos, nanosPerSecond, mk.injEq] at *
  omega

theorem ofNanos_eq_iff {nanos : Int} :
    ofNanos nanos = instant ↔ instant.nanos < nanosPerSecond ∧ instant.toNanos = nanos := by
  constructor
  · rintro rfl
    exact ⟨nanos_ofNanos nanos, toNanos_ofNanos nanos⟩
  · rintro ⟨small, rfl⟩
    exact eq_of_toNanos (nanos_ofNanos _) small (toNanos_ofNanos _)

theorem order_eq_compare (laterSmall : later.nanos < nanosPerSecond)
    (earlierSmall : earlier.nanos < nanosPerSecond) :
    later.order earlier = compare later.toNanos earlier.toNanos := by
  obtain ⟨laterSeconds, laterNanos⟩ := later
  obtain ⟨earlierSeconds, earlierNanos⟩ := earlier
  simp only [order, toNanos, nanosPerSecond] at *
  rcases Int.lt_trichotomy laterSeconds earlierSeconds with less | rfl | greater
  · rw [Int.compare_eq_lt.mpr less, Int.compare_eq_lt.mpr (by omega)]
    rfl
  · rw [Int.compare_eq_eq.mpr rfl, Ordering.then]
    rcases Nat.lt_trichotomy laterNanos earlierNanos with less | rfl | greater
    · rw [Nat.compare_eq_lt.mpr less, Int.compare_eq_lt.mpr (by omega)]
    · rw [Nat.compare_eq_eq.mpr rfl, Int.compare_eq_eq.mpr rfl]
    · rw [Nat.compare_eq_gt.mpr greater, Int.compare_eq_gt.mpr (by omega)]
  · rw [Int.compare_eq_gt.mpr greater, Int.compare_eq_gt.mpr (by omega)]
    rfl

theorem millisSince_eq (laterNanos : later.nanos < nanosPerSecond)
    (earlierNanos : earlier.nanos < nanosPerSecond)
    (apart : later.toNanos = earlier.toNanos + millis * 1000000) :
    later.millisSince earlier = millis := by
  unfold millisSince
  dsimp only
  rw [if_neg fun leap => Nat.not_le_of_lt earlierNanos leap.2,
    if_neg fun leap => Nat.not_le_of_lt laterNanos leap.2, apart]
  have : earlier.toNanos + millis * 1000000 - earlier.toNanos + 0 * (nanosPerSecond : Int) =
      millis * 1000000 := by omega
  rw [this]
  exact Int.mul_tdiv_cancel _ (by decide)

/-! ## Shifts -/

/-- A shift away from leap seconds is exact. -/
theorem shift_eq_some_iff (ordinary : instant.IsOrdinary) :
    instant.shift millis = some moved ↔
      moved.IsOrdinary ∧ moved.toNanos = instant.toNanos + millis * 1000000 := by
  unfold shift
  dsimp only
  rw [if_pos ordinary.nanos, Option.ite_none_right_eq_some, Option.some_inj]
  constructor
  · rintro ⟨inRange, same⟩
    obtain ⟨small, nanos⟩ := ofNanos_eq_iff.mp same
    exact ⟨⟨small, same ▸ inRange⟩, nanos⟩
  · rintro ⟨⟨small, inRange⟩, nanos⟩
    have same := ofNanos_eq_iff.mpr ⟨small, nanos⟩
    exact ⟨same ▸ inRange, same⟩

theorem shiftLength_eq (duration : Duration) :
    shiftLength duration =
      if duration.exactMillis ≤ maxSigned then .ok (duration.exactMillis : Int)
      else .error .tooLong := by
  have signed_lt : maxSigned < maxWord := by decide
  unfold shiftLength Duration.millis
  by_cases short : duration.exactMillis ≤ maxSigned
  · have measured : min duration.exactMillis maxWord = duration.exactMillis := by omega
    rw [measured]
  · have long : ¬ min duration.exactMillis maxWord ≤ maxSigned := by omega
    rw [if_neg short, if_neg long]

theorem add_eq_ok_iff (ordinary : instant.IsOrdinary) :
    instant.add duration = .ok moved ↔ duration.exactMillis ≤ maxSigned ∧ moved.IsOrdinary ∧
      moved.toNanos = instant.toNanos + duration.exactMillis * 1000000 := by
  rw [← shift_eq_some_iff ordinary, add, shiftLength_eq]
  by_cases short : duration.exactMillis ≤ maxSigned
  · rw [if_pos short, and_iff_right short]
    cases shifted : instant.shift duration.exactMillis <;>
      simp [bind, Except.bind, shifted, pure, Except.pure, throw, throwThe, MonadExceptOf.throw]
  · simp [bind, Except.bind, short]

theorem sub_eq_ok_iff (ordinary : instant.IsOrdinary) :
    instant.sub duration = .ok moved ↔ duration.exactMillis ≤ maxSigned ∧ moved.IsOrdinary ∧
      moved.toNanos = instant.toNanos - duration.exactMillis * 1000000 := by
  rw [Int.sub_eq_add_neg, ← Int.neg_mul, ← shift_eq_some_iff ordinary, sub, shiftLength_eq]
  by_cases short : duration.exactMillis ≤ maxSigned
  · rw [if_pos short, and_iff_right short]
    cases shifted : instant.shift (-duration.exactMillis) <;>
      simp [bind, Except.bind, shifted, pure, Except.pure, throw, throwThe, MonadExceptOf.throw]
  · simp [bind, Except.bind, short]

/-- A shift that is too long fails, at a leap second as well. -/
theorem shift_tooLong (instant : Instant) (long : maxSigned < duration.exactMillis) :
    instant.add duration = .error .tooLong ∧ instant.sub duration = .error .tooLong := by
  have length := shiftLength_eq duration
  rw [if_neg (Nat.not_le_of_lt long)] at length
  simp [add, sub, length, bind, Except.bind]

end Instant

section

variable {time : Instant} {duration : Duration} {outcome : Except Instant.Fault Instant}

theorem Scalar.binary_plus_timePoint (added : time.add duration = outcome) :
    binary .plus (.timePoint time) (.duration duration) =
      some ((outcome.mapError (·.cause)).map .timePoint) := by
  rw [← added]
  rfl

theorem Scalar.binary_minus_timePoint (subtracted : time.sub duration = outcome) :
    binary .minus (.timePoint time) (.duration duration) =
      some ((outcome.mapError (·.cause)).map .timePoint) := by
  rw [← subtracted]
  rfl

end

namespace Value

section

variable {store : Store} {point length later earlier : Value} {time moved start : Instant}
  {duration : Duration}

theorem comparesLike_toNanos (laterTime : store.scalar? later = some (.timePoint moved))
    (earlierTime : store.scalar? earlier = some (.timePoint start))
    (movedOrdinary : moved.IsOrdinary) (startOrdinary : start.IsOrdinary) :
    ComparesLike store later earlier moved.toNanos start.toNanos := by
  apply comparesLike_of_order
  intro op answer decided
  rw [binaryResult?_scalar laterTime earlierTime]
  rw [← Instant.order_eq_compare movedOrdinary.nanos startOrdinary.nanos] at decided
  cases op <;> cases decided <;> rfl

/-- The time between two points is the duration that leads from one to the other. -/
theorem elapsed_equal (laterTime : store.scalar? later = some (.timePoint moved))
    (earlierTime : store.scalar? earlier = some (.timePoint start))
    (lengthDuration : store.duration? length = some duration)
    (movedOrdinary : moved.IsOrdinary) (startOrdinary : start.IsOrdinary)
    (short : duration.exactMillis ≤ maxSigned)
    (apart : moved.toNanos = start.toNanos + duration.exactMillis * 1000000) :
    ∃ elapsed after, Gives store .minus later earlier elapsed after ∧
      Decides after .equal elapsed length true := by
  have measured : duration.IsMeasured := Nat.le_trans short (by decide)
  obtain ⟨between, counted⟩ := Duration.ofCount?_isSome .ms measured
  have computed : Scalar.binary .minus (.timePoint moved) (.timePoint start) =
      some (.ok (.duration between)) := by
    simp only [Scalar.binary, Scalar.timePointBinary,
      Instant.millisSince_eq movedOrdinary.nanos startOrdinary.nanos apart, Duration.ofMillis]
    rw [if_neg (by omega), Int.toNat_natCast, counted]
    rfl
  obtain ⟨elapsed, after, gives, found, keeps⟩ := exists_gives laterTime earlierTime computed
  have elapsedDuration := Store.duration?_eq_some_iff.mpr found
  have lengthAfter := Store.duration?_eq_some_iff.mpr
    (keeps.scalar? (Store.duration?_eq_some_iff.mp lengthDuration))
  refine ⟨elapsed, after, gives, ((comparesLike_millis elapsedDuration lengthAfter).equal _).mpr ?_⟩
  have same : between.millis = duration.millis := by
    unfold Duration.millis
    rw [Duration.exactMillis_ofCount? counted]
    simp [TimeUnit.millis]
  simp [same]

/-- The shift leads back to the point. -/
theorem back_equal {op : BinaryOperator} (laterTime : store.scalar? later = some (.timePoint moved))
    (lengthDuration : store.duration? length = some duration)
    (pointTime : store.scalar? point = some (.timePoint time)) (ordinary : time.IsOrdinary)
    (computed : Scalar.binary op (.timePoint moved) (.duration duration) =
      some (.ok (.timePoint time))) :
    ∃ back after, Gives store op later length back after ∧
      Decides after .equal back point true := by
  obtain ⟨back, after, gives, found, keeps⟩ :=
    exists_gives laterTime (Store.duration?_eq_some_iff.mp lengthDuration) computed
  refine ⟨back, after, gives, ?_⟩
  have compares := comparesLike_toNanos found (keeps.scalar? pointTime) ordinary ordinary
  exact (compares.equal true).mpr (by simp)

/-- Away from leap seconds a shift of a point in time is measured and undone by the opposite
operators, and it never leads to an earlier point. A shift of more milliseconds than a signed
word holds fails. -/
theorem shifts_invertible (pointTime : store.scalar? point = some (.timePoint time))
    (lengthDuration : store.duration? length = some duration) :
    (time.IsOrdinary →
      (∀ later final, Gives store .plus point length later final →
        Decides final .lessEqual point later true ∧
        (∃ elapsed after, Gives final .minus later point elapsed after ∧
          Decides after .equal elapsed length true) ∧
        (∃ back after, Gives final .minus later length back after ∧
          Decides after .equal back point true)) ∧
      (∀ earlier final, Gives store .minus point length earlier final →
        (∃ back after, Gives final .plus earlier length back after ∧
          Decides after .equal back point true) ∧
        (∃ elapsed after, Gives final .minus point earlier elapsed after ∧
          Decides after .equal elapsed length true))) ∧
    (maxSigned < duration.exactMillis →
      Refuses store .plus point length .durationOverflow ∧
        Refuses store .minus point length .durationOverflow) := by
  have lengthScalar := Store.duration?_eq_some_iff.mp lengthDuration
  refine ⟨fun ordinary => ⟨fun later final gives => ?_, fun earlier final gives => ?_⟩,
    fun long => ?_⟩
  · obtain ⟨scalar, computed, laterTime, keeps⟩ := gives.computed pointTime lengthScalar
    obtain ⟨moved, added, rfl⟩ := scalarResult_eq_ok computed
    obtain ⟨short, movedOrdinary, apart⟩ := (Instant.add_eq_ok_iff ordinary).mp added
    have pointFinal := keeps.scalar? pointTime
    have lengthFinal := Store.duration?_eq_some_iff.mpr (keeps.scalar? lengthScalar)
    have compares := comparesLike_toNanos pointFinal laterTime ordinary movedOrdinary
    have returned : moved.sub duration = .ok time :=
      (Instant.sub_eq_ok_iff movedOrdinary).mpr ⟨short, ordinary, by omega⟩
    exact ⟨(compares.lessEqual true).mpr (by simp; omega),
      elapsed_equal laterTime pointFinal lengthFinal movedOrdinary ordinary short apart,
      back_equal laterTime lengthFinal pointFinal ordinary
        (Scalar.binary_minus_timePoint returned)⟩
  · obtain ⟨scalar, computed, earlierTime, keeps⟩ := gives.computed pointTime lengthScalar
    obtain ⟨moved, subtracted, rfl⟩ := scalarResult_eq_ok computed
    obtain ⟨short, movedOrdinary, apart⟩ := (Instant.sub_eq_ok_iff ordinary).mp subtracted
    have pointFinal := keeps.scalar? pointTime
    have lengthFinal := Store.duration?_eq_some_iff.mpr (keeps.scalar? lengthScalar)
    have returned : moved.add duration = .ok time :=
      (Instant.add_eq_ok_iff movedOrdinary).mpr ⟨short, ordinary, by omega⟩
    exact ⟨back_equal earlierTime lengthFinal pointFinal ordinary
        (Scalar.binary_plus_timePoint returned),
      elapsed_equal pointFinal earlierTime lengthFinal ordinary movedOrdinary short (by omega)⟩
  · obtain ⟨added, subtracted⟩ := Instant.shift_tooLong time long
    exact ⟨refuses_of_error pointTime lengthScalar (Scalar.binary_plus_timePoint added),
      refuses_of_error pointTime lengthScalar (Scalar.binary_minus_timePoint subtracted)⟩

end

/-- The start of a year, two days and the greatest number of months. -/
def newYear : Store :=
  ⟨#[.scalar (.timePoint ⟨1704067200, 0⟩), .scalar (.duration ⟨2, .day⟩),
    .scalar (.duration ⟨18446744073709551615, .month⟩)], 0⟩

/-- A shift by two days is measured and undone, and one by the months fails. -/
theorem newYear_shifts :
    (∃ later final, Gives newYear .plus (.stored .timePoint 0) (.stored .duration 1) later final ∧
      final.scalar? later = some (.timePoint ⟨1704240000, 0⟩) ∧
      ∃ back after, Gives final .minus later (.stored .duration 1) back after ∧
        Decides after .equal back (.stored .timePoint 0) true) ∧
    Refuses newYear .plus (.stored .timePoint 0) (.stored .duration 2) .durationOverflow := by
  have start : newYear.scalar? (.stored .timePoint 0) = some (.timePoint ⟨1704067200, 0⟩) := rfl
  have days : newYear.duration? (.stored .duration 1) = some ⟨2, .day⟩ := rfl
  have months : newYear.duration? (.stored .duration 2) =
      some ⟨18446744073709551615, .month⟩ := rfl
  have ordinary : Instant.IsOrdinary ⟨1704067200, 0⟩ := ⟨by decide, by decide⟩
  have added : Instant.add ⟨1704067200, 0⟩ ⟨2, .day⟩ = .ok ⟨1704240000, 0⟩ :=
    (Instant.add_eq_ok_iff ordinary).mpr ⟨by decide, ⟨by decide, by decide⟩, by decide⟩
  obtain ⟨later, final, gives, found, -⟩ := exists_gives start
    (Store.duration?_eq_some_iff.mp days) (Scalar.binary_plus_timePoint added)
  obtain ⟨-, -, undone⟩ := ((shifts_invertible start days).1 ordinary).1 later final gives
  obtain ⟨refused, -⟩ := (shifts_invertible start months).2 (by decide)
  exact ⟨⟨later, final, gives, found, undone⟩, refused⟩

end Value

end FlowScript
