import FlowScript.Proofs.Real.Conversion
import FlowScript.Proofs.Value.Equality
import FlowScript.Value.Conversion

/-!
# The order of numbers

Two integers are compared exactly and any other two numbers as reals. A comparison of
integers is never the opposite of that of their reals, so that comparison is total, and
equality is comparison both ways. A chain of comparisons may be broken, but only by two
integers with one real, compared with that real in between.
-/

set_option autoImplicit false

namespace FlowScript

namespace Number

/-- The operator `<=` holds. -/
def AtMost (left right : Number) : Prop :=
  ∃ order, Scalar.numberOrder left right = some order ∧ order.isLE = true

/-- The operator `==` holds. -/
def Same (left right : Number) : Prop := Scalar.numberOrder left right = some .eq

/-- An integer, or a real that is a number. -/
def IsComparable : Number → Prop
  | .integer _ => True
  | .real value => value.isNaN = false

/-- Everything but the integers beyond two to the power of 53. -/
def IsExact : Number → Prop
  | .integer value => value.toInt.natAbs ≤ 2 ^ 53
  | .real _ => True

/-- Two integers, the greater one first, that both equal the real between them. -/
def Conflated (left middle right : Number) : Prop :=
  ∃ greater real smaller, left = .integer greater ∧ middle = .real real ∧
    right = .integer smaller ∧ smaller.toInt < greater.toInt ∧
    left.Same middle ∧ middle.Same right

/-- Numbers are compared like their reals, but two integers exactly. -/
theorem atMost_iff (left right : Number) :
    left.AtMost right ↔ left.toReal ≤ right.toReal ∧
      ∀ first second, left = .integer first → right = .integer second →
        first.toInt ≤ second.toInt := by
  cases left with
  | integer left =>
      cases right with
      | integer right =>
          have exact_le : (Number.integer left).AtMost (.integer right) ↔
              left.toInt ≤ right.toInt := by
            simp [AtMost, Scalar.numberOrder, Int.isLE_compare]
          rw [exact_le]
          constructor
          · intro le
            refine ⟨(Real.ofInt64_le_iff left right).mpr (Real.nearest_mono le), ?_⟩
            rintro first second ⟨⟩ ⟨⟩
            exact le
          · rintro ⟨-, le⟩
            exact le left right rfl rfl
      | real right =>
          refine (Real.le_iff_order _ _).symm.trans (and_iff_left ?_).symm
          rintro first second - ⟨⟩
  | real left =>
      have compared : (Number.real left).AtMost right ↔ left ≤ right.toReal := by
        cases right <;> exact (Real.le_iff_order _ _).symm
      refine compared.trans (and_iff_left ?_).symm
      rintro first second ⟨⟩

theorem IsComparable.toReal {number : Number} (comparable : number.IsComparable) :
    number.toReal.isNaN = false := by
  cases number with
  | integer value => exact Real.ofInt64_isNaN value
  | real value => exact comparable

theorem exists_numberOrder {left right : Number} (leftComparable : left.IsComparable)
    (rightComparable : right.IsComparable) :
    ∃ order, Scalar.numberOrder left right = some order := by
  have reals := Real.exists_order leftComparable.toReal rightComparable.toReal
  cases left with
  | integer left =>
      cases right with
      | integer right => exact ⟨_, rfl⟩
      | real right => exact reals
  | real left => cases right <;> exact reals

theorem atMost_total {left right : Number} (leftComparable : left.IsComparable)
    (rightComparable : right.IsComparable) : left.AtMost right ∨ right.AtMost left := by
  obtain ⟨order, ordered⟩ := exists_numberOrder leftComparable rightComparable
  have turned := numberOrder_swap left right
  rw [ordered] at turned
  cases order with
  | lt | eq => exact .inl ⟨_, ordered, rfl⟩
  | gt => exact .inr ⟨_, turned, rfl⟩

theorem same_iff (left right : Number) :
    left.Same right ↔ left.AtMost right ∧ right.AtMost left := by
  have turned := numberOrder_swap left right
  unfold Same AtMost
  rw [turned]
  cases Scalar.numberOrder left right with
  | none => simp
  | some order => cases order <;> simp

/-- The ends of a chain are in order unless they are two integers with a real between. -/
theorem atMost_trans_iff {left middle right : Number} (first : left.AtMost middle)
    (second : middle.AtMost right) : left.AtMost right ↔ ¬ Conflated left middle right := by
  obtain ⟨firstReals, firstIntegers⟩ := (atMost_iff _ _).mp first
  obtain ⟨secondReals, secondIntegers⟩ := (atMost_iff _ _).mp second
  rw [atMost_iff]
  constructor
  · rintro ⟨-, integers⟩ ⟨greater, real, smaller, rfl, rfl, rfl, falling, -, -⟩
    have := integers greater smaller rfl rfl
    omega
  intro apart
  refine ⟨Real.le_trans firstReals secondReals, fun greater smaller isGreater isSmaller => ?_⟩
  subst isGreater isSmaller
  by_contra falling
  cases middle with
  | integer between =>
      have := firstIntegers greater between rfl rfl
      have := secondIntegers between smaller rfl rfl
      omega
  | real between =>
      -- The real lies between those of the integers, which are in the opposite order.
      have turned : Real.ofInt64 smaller ≤ Real.ofInt64 greater :=
        (Real.ofInt64_le_iff _ _).mpr (Real.nearest_mono (by omega))
      have firstBack : (Number.real between).AtMost (.integer greater) :=
        (atMost_iff _ _).mpr ⟨Real.le_trans secondReals turned, nofun⟩
      have secondBack : (Number.integer smaller).AtMost (.real between) :=
        (atMost_iff _ _).mpr ⟨Real.le_trans turned firstReals, nofun⟩
      exact apart ⟨greater, between, smaller, rfl, rfl, rfl, by omega,
        (same_iff _ _).mpr ⟨first, firstBack⟩, (same_iff _ _).mpr ⟨second, secondBack⟩⟩

theorem same_trans_iff {left middle right : Number} (first : left.Same middle)
    (second : middle.Same right) :
    left.Same right ↔ ¬ Conflated left middle right ∧ ¬ Conflated right middle left := by
  obtain ⟨firstOut, firstBack⟩ := (same_iff _ _).mp first
  obtain ⟨secondOut, secondBack⟩ := (same_iff _ _).mp second
  rw [same_iff, atMost_trans_iff firstOut secondOut, atMost_trans_iff secondBack firstBack]

/-- Of two conflated integers one lies beyond two to the power of 53. -/
theorem IsExact.not_conflated {left middle right : Number} (leftExact : left.IsExact)
    (rightExact : right.IsExact) : ¬ Conflated left middle right := by
  rintro ⟨greater, real, smaller, rfl, rfl, rfl, falling, first, second⟩
  have firstReals := ((atMost_iff _ _).mp ((same_iff _ _).mp first).1).1
  have secondReals := ((atMost_iff _ _).mp ((same_iff _ _).mp second).1).1
  have rounded := (Real.ofInt64_le_iff _ _).mp (Real.le_trans firstReals secondReals)
  rw [Real.nearest_of_small leftExact, Real.nearest_of_small rightExact] at rounded
  omega

end Number

namespace Value

theorem binaryResult?_number {store : Store} {left right : Value} {first second : Number}
    (leftNumber : number? store left = some first)
    (rightNumber : number? store right = some second) (op : BinaryOperator) :
    binaryResult? store op left right = Scalar.numberBinary op first second := by
  obtain ⟨leftScalar, leftFound, isFirst⟩ := Option.bind_eq_some_iff.mp leftNumber
  obtain ⟨rightScalar, rightFound, isSecond⟩ := Option.bind_eq_some_iff.mp rightNumber
  simp only [binaryResult?, leftFound, rightFound]
  cases leftScalar <;> cases isFirst <;> cases rightScalar <;> cases isSecond <;> rfl

theorem decides_lessEqual_iff {store : Store} {left right : Value} {first second : Number}
    (leftNumber : number? store left = some first)
    (rightNumber : number? store right = some second) :
    Decides store .lessEqual left right true ↔ first.AtMost second := by
  rw [decides_iff_of_truth (binaryResult?_number leftNumber rightNumber .lessEqual)]
  unfold Scalar.compareNumbers Number.AtMost
  cases Scalar.numberOrder first second with
  | none => simp
  | some order => cases order <;> simp [Scalar.decideOrder]

theorem decides_equal_iff {store : Store} {left right : Value} {first second : Number}
    (leftNumber : number? store left = some first)
    (rightNumber : number? store right = some second) :
    Decides store .equal left right true ↔ first.Same second := by
  rw [decides_iff_of_truth (binaryResult?_number leftNumber rightNumber .equal),
    Scalar.compareNumbers_equal]
  simp [Number.Same]

/-- Comparison of numbers is total, and equality is comparison both ways. A chain of
comparisons, or of equalities, holds from end to end exactly where its ends are not two
integers that are conflated by a real between them, as never happens where integers are
converted to reals exactly. -/
theorem numbers_preordered_unless_conflated {store : Store} {left middle right : Value}
    {first second third : Number} (leftNumber : number? store left = some first)
    (middleNumber : number? store middle = some second)
    (rightNumber : number? store right = some third) (leftComparable : first.IsComparable)
    (middleComparable : second.IsComparable) :
    (Decides store .lessEqual left middle true ∨ Decides store .lessEqual middle left true) ∧
    (Decides store .equal left middle true ↔
      Decides store .lessEqual left middle true ∧ Decides store .lessEqual middle left true) ∧
    (Decides store .lessEqual left middle true → Decides store .lessEqual middle right true →
      (Decides store .lessEqual left right true ↔ ¬ Number.Conflated first second third)) ∧
    (Decides store .equal left middle true → Decides store .equal middle right true →
      (Decides store .equal left right true ↔
        ¬ Number.Conflated first second third ∧ ¬ Number.Conflated third second first)) ∧
    (first.IsExact → third.IsExact →
      ¬ Number.Conflated first second third ∧ ¬ Number.Conflated third second first) := by
  simp only [decides_lessEqual_iff leftNumber middleNumber,
    decides_lessEqual_iff middleNumber leftNumber, decides_lessEqual_iff middleNumber rightNumber,
    decides_lessEqual_iff leftNumber rightNumber, decides_equal_iff leftNumber middleNumber,
    decides_equal_iff middleNumber rightNumber, decides_equal_iff leftNumber rightNumber]
  exact ⟨Number.atMost_total leftComparable middleComparable, Number.same_iff first second,
    Number.atMost_trans_iff, Number.same_trans_iff,
    fun leftExact rightExact =>
      ⟨leftExact.not_conflated rightExact, rightExact.not_conflated leftExact⟩⟩

/-- Two neighbouring integers with one real, and this real. -/
def neighbours : Store :=
  ⟨#[.scalar (.integer 9007199254740993), .scalar (.real 9007199254740992.0),
    .scalar (.integer 9007199254740992)], 0⟩

theorem greater_number : number? neighbours (.stored .integer 0) =
    some (.integer 9007199254740993) := rfl

theorem between_number : number? neighbours (.stored .real 1) =
    some (.real 9007199254740992.0) := rfl

theorem smaller_number : number? neighbours (.stored .integer 2) =
    some (.integer 9007199254740992) := rfl

theorem greater_same_between :
    (Number.integer 9007199254740993).Same (.real 9007199254740992.0) := by
  unfold Number.Same
  decide

theorem between_same_smaller :
    (Number.real 9007199254740992.0).Same (.integer 9007199254740992) := by
  unfold Number.Same
  decide

/-- Both comparison and equality lead from the greater integer over the real to the smaller
one, but neither leads there at once. -/
theorem neighbours_not_transitive :
    (Decides neighbours .lessEqual (.stored .integer 0) (.stored .real 1) true ∧
      Decides neighbours .lessEqual (.stored .real 1) (.stored .integer 2) true ∧
      ¬ Decides neighbours .lessEqual (.stored .integer 0) (.stored .integer 2) true) ∧
    Decides neighbours .equal (.stored .integer 0) (.stored .real 1) true ∧
      Decides neighbours .equal (.stored .real 1) (.stored .integer 2) true ∧
      ¬ Decides neighbours .equal (.stored .integer 0) (.stored .integer 2) true := by
  simp only [decides_lessEqual_iff greater_number between_number,
    decides_lessEqual_iff between_number smaller_number,
    decides_lessEqual_iff greater_number smaller_number,
    decides_equal_iff greater_number between_number,
    decides_equal_iff between_number smaller_number,
    decides_equal_iff greater_number smaller_number]
  have apart : ¬ (Number.integer 9007199254740993).AtMost (.integer 9007199254740992) := by
    rw [Number.atMost_iff]
    rintro ⟨-, integers⟩
    exact absurd (integers _ _ rfl rfl) (by decide)
  exact ⟨⟨((Number.same_iff _ _).mp greater_same_between).1,
      ((Number.same_iff _ _).mp between_same_smaller).1, apart⟩,
    greater_same_between, between_same_smaller,
    fun same => apart ((Number.same_iff _ _).mp same).1⟩

/-- The other way round the neighbours are in order. -/
theorem neighbours_ordered :
    Decides neighbours .lessEqual (.stored .integer 2) (.stored .real 1) true ∧
      Decides neighbours .lessEqual (.stored .real 1) (.stored .integer 0) true ∧
      Decides neighbours .lessEqual (.stored .integer 2) (.stored .integer 0) true := by
  have smallerBetween := (decides_lessEqual_iff smaller_number between_number).mpr
    ((Number.same_iff _ _).mp between_same_smaller).2
  have betweenGreater := (decides_lessEqual_iff between_number greater_number).mpr
    ((Number.same_iff _ _).mp greater_same_between).2
  obtain ⟨-, -, transitive, -, -⟩ := numbers_preordered_unless_conflated smaller_number
    between_number greater_number trivial (show Float.isNaN 9007199254740992.0 = false by decide)
  refine ⟨smallerBetween, betweenGreater, (transitive smallerBetween betweenGreater).mpr ?_⟩
  rintro ⟨_, _, _, isFirst, -, isLast, falling, -⟩
  rw [← Number.integer.inj isFirst, ← Number.integer.inj isLast] at falling
  exact absurd falling (by decide)

end Value

end FlowScript
