import FlowScript.Proofs.Storage.Reference
import FlowScript.Proofs.Storage.Resemblance
import FlowScript.Value.Conversion

/-!
# What fills a cell

The first contents of a variable are constructed, later ones are assigned. Both ways
convert numbers and copy everything else, so that they make contents of the same
structure. Only the rules for numbers are not the same: a construction takes integers
through the reals.
-/

set_option autoImplicit false

namespace FlowScript

variable {allowed : Workflow → Prop} {store : Store}

/-! ## What a source supplies -/

def StoredKind.isNumeric : StoredKind → Bool
  | .integer | .real => true
  | _ => false

namespace Value

/-- A value without parts has contents of its own kind. -/
def Typed (store : Store) (value : Value) : Prop :=
  ∀ kind scalar, value.kind = .stored kind → store.scalar? value = some scalar →
    scalar.kind = kind

/-- Contents of a kind that are made from a value: numbers by a rule, and all else as
a deep copy. -/
inductive Fills (before : Store) (source : Value) (kind : StoredKind)
    (rule : Number → Option Scalar) (after : Store) : Cell → Prop where
  | number {number : Number} {scalar : Scalar} : kind.isNumeric →
      number? before source = some number → rule number = some scalar →
      Fills before source kind rule after (.scalar scalar)
  | copy {sourceKind : StoredKind} {address : Nat} {original cell : Cell} :
      kind.isNumeric = false → source = .stored sourceKind address →
      before.cell? address = some original → original.Alike before after cell →
      Fills before source kind rule after cell

theorem Fills.mono {before after grown : Store} {source : Value} {kind : StoredKind}
    {rule : Number → Option Scalar} {cell : Cell} (fills : source.Fills before kind rule after cell)
    (keeps : after.Keeps grown) : source.Fills before kind rule grown cell := by
  cases fills with
  | number numeric found converted => exact .number numeric found converted
  | copy plain same found alike => exact .copy plain same found (alike.mono keeps)

theorem Fills.valued {before after : Store} {source : Value} {kind : StoredKind}
    {rule : Number → Option Scalar} {cell : Cell}
    (fills : source.Fills before kind rule after cell) :
    source.isVoid = false := by
  cases fills with
  | number _ found =>
      cases source with
      | void => cases found
      | _ => rfl
  | copy _ isSource =>
      subst isSource
      rfl

theorem isVoid_congr {value other : Value} (same : value.kind = other.kind) :
    value.isVoid = other.isVoid := by
  cases value <;> cases other <;> first | rfl | cases same

theorem isError_congr {value other : Value} (same : value.kind = other.kind) :
    value.isError = other.isError := by
  cases value <;> cases other <;> first | rfl | cases same

/-- The value has the given kind, or one that turns into it. -/
def Suits (source : Value) (kind : StoredKind) : Prop :=
  kind.isNumeric ∨ kind.isDictionary ∨ source.kind = .stored kind

theorem Suits.own {source : Value} {kind : StoredKind} (suits : source.Suits kind)
    (plain : kind.isNumeric = false) (single : kind.isDictionary = false) :
    source.kind = .stored kind := by
  rcases suits with numeric | shaped | own
  · exact absurd numeric (by simp [plain])
  · exact absurd shaped (by simp [single])
  · exact own

theorem copiedCell_fills (sound : store.Sound allowed) {source : Value}
    (within : source.Within allowed store.size) {kind : StoredKind}
    (plain : kind.isNumeric = false) (rule : Number → Option Scalar) (mismatch : Cause) :
    After (ExceptT.run (do
      match ← source.detachedCell? with
      | some cell => pure cell
      | none => throw mismatch : StoreExceptM Cell)) store fun outcome final => ∀ cell,
        outcome = .ok cell → source.Fills store kind rule final cell := by
  obtain ⟨rank, ranked⟩ := sound.ranked
  simp only [after_run_bind, after_run_lift]
  refine (detachedCell?_renewed sound.backed ranked within.backed).imp
    fun result final copied => ?_
  cases result with
  | some copy =>
      obtain ⟨sourceKind, address, original, same, found, renewed⟩ := copied
      rintro _ ⟨⟩
      exact .copy plain same found renewed.alike
  | none =>
      rintro _ ⟨⟩

theorem integer?_scalar {value : Value} {number : Int64}
    (found : store.integer? value = some number) :
    store.scalar? value = some (.integer number) := by
  unfold Store.integer? at found
  split at found
  · next atValue =>
      cases found
      exact atValue
  · cases found

theorem string?_scalar {value : Value} {text : String} (found : store.string? value = some text) :
    store.scalar? value = some (.string text) := by
  unfold Store.string? at found
  split at found
  · next atValue =>
      cases found
      exact atValue
  · cases found

theorem constructedCell_fills (sound : store.Sound allowed) {source : Value}
    (within : source.Within allowed store.size) (typed : source.Typed store) {kind : StoredKind}
    (suits : source.Suits kind) :
    After (constructedCell kind source).run store fun outcome final => ∀ cell,
      outcome = .ok cell →
        source.Fills store kind (Scalar.convertNumber? · kind) final cell := by
  have copies : kind.isNumeric = false → _ := fun plain => copiedCell_fills sound within plain
    (Scalar.convertNumber? · kind) (.constructionMismatch (.stored kind) source.kind)
  unfold constructedCell
  simp only [after_run_bind, after_run_get]
  cases kind with
  | integer | real =>
      dsimp only
      split
      · next result made =>
          obtain ⟨number, found, converted⟩ := Option.bind_eq_some_iff.mp made
          rintro _ ⟨⟩
          exact .number rfl found converted
      · rintro _ ⟨⟩
  | duration =>
      have own := suits.own rfl rfl
      dsimp only
      split
      · next millis found => cases typed _ _ own (integer?_scalar found)
      · rw [if_pos own]
        exact copies rfl
  | timePoint =>
      have own := suits.own rfl rfl
      dsimp only
      split
      · next text found => cases typed _ _ own (string?_scalar found)
      · rw [if_pos own]
        exact copies rfl
  | dictionary | host | boolean | string | array =>
      dsimp only
      split
      · exact copies rfl
      · rintro _ ⟨⟩

theorem construct_fills (sound : store.Sound allowed) {source : Value}
    (within : source.Within allowed store.size) (typed : source.Typed store) {kind : StoredKind}
    (suits : source.Suits kind) (valued : source.isVoid = false) (noError : source.isError = false)
    (now : Instant) :
    After (construct now (.stored kind) source).run store fun outcome final => ∀ held,
      outcome = .ok held → ∃ address cell, held = .stored kind address ∧
        final.cell? address = some cell ∧
        source.Fills store kind (Scalar.convertNumber? · kind) final cell := by
  have constructed : After (ExceptT.run (do
      let cell ← constructedCell kind source
      allocate kind cell : StoreExceptM Value)) store fun outcome final => ∀ held,
        outcome = .ok held → ∃ address cell, held = .stored kind address ∧
          final.cell? address = some cell ∧
          source.Fills store kind (Scalar.convertNumber? · kind) final cell := by
    simp only [after_run_bind, after_run_lift]
    refine (constructedCell_fills sound within typed suits).imp fun outcome middle filled => ?_
    cases outcome with
    | error cause => rintro _ ⟨⟩
    | ok cell =>
        rintro _ ⟨⟩
        exact ⟨middle.size, cell, rfl, Store.cell?_push_new middle cell,
          (filled cell rfl).mono (middle.keeps_push cell)⟩
  cases source with
  | void => cases valued
  | error => cases noError
  | stored | member | builtin | workflow | invocation => exact constructed

/-- A cell was written over with contents made from a source, of new cells only. All that
was read had been read by then. -/
def Refills (before : Store) (source : Value) (kind : StoredKind) (address : Nat)
    (after : Store) : Prop :=
  ∃ grown cell, before.Extends grown ∧ (∀ part ∈ cell.parts, before.size ≤ part) ∧
    source.Fills before kind (assignedNumber kind) grown cell ∧ after = grown.write address cell

theorem Refills.fills {before after : Store} {source : Value} {kind : StoredKind} {address : Nat}
    (refills : source.Refills before kind address after) (inBounds : address < before.size) :
    ∃ cell, after.cell? address = some cell ∧
      source.Fills before kind (assignedNumber kind) after cell := by
  obtain ⟨grown, cell, extended, fresh, fills, rfl⟩ := refills
  have still : address < grown.size := Nat.lt_of_lt_of_le inBounds extended.size_le
  refine ⟨cell, Store.cell?_write_same cell still, ?_⟩
  cases fills with
  | number numeric found converted => exact .number numeric found converted
  | copy plain same found alike =>
      exact .copy plain same found (alike.write extended fresh inBounds cell)

/-- A value is written to the target in place, provided that it suits. -/
theorem assign_refills (cellsBacked : store.Backed) {rank : Nat → Nat}
    (ranked : store.RankedBy rank) {source : Value} (backed : source.Backed store)
    (noError : source.isError = false) (kind : StoredKind) (address : Nat) :
    After (assign (.stored kind address) source).run store fun outcome final => ∀ result,
      outcome = .ok result → result = .stored kind address ∧ source.Suits kind ∧
        source.Refills store kind address final := by
  have copies := detachedCell?_renewed cellsBacked ranked backed
  have writes : ∀ {copy : Cell} {grown : Store}, kind.isNumeric = false →
      (∃ sourceKind other original, source = .stored sourceKind other ∧
        store.cell? other = some original ∧ original.Renewed store grown copy) →
      source.Refills store kind address (grown.write address copy) := by
    rintro copy grown plain ⟨sourceKind, other, original, same, found, renewed⟩
    exact ⟨grown, copy, renewed.grown, fun part member => (renewed.fresh part member).1,
      .copy plain same found renewed.alike, rfl⟩
  have overwrites : kind.isNumeric = false →
      After (assignSame (.stored kind address) source).run store fun outcome final => ∀ result,
        outcome = .ok result → result = .stored kind address ∧ source.Suits kind ∧
          source.Refills store kind address final := by
    intro plain
    unfold assignSame
    split
    · next own =>
        cases source with
        | stored sourceKind other =>
            cases Kind.stored.inj own
            simp only [after_run_bind, after_run_lift, overwrite, if_true, after_bind]
            apply copies.imp
            intro outcome grown copied
            cases outcome with
            | none => cases copied
            | some copy =>
                rintro _ ⟨⟩
                exact ⟨rfl, .inr (.inr rfl), writes plain copied⟩
        | _ => cases own
    · rintro _ ⟨⟩
  unfold assign
  simp only [after_run_bind, after_run_get]
  rw [if_neg (by simp [noError])]
  cases kind with
  | integer | real =>
      dsimp only
      split
      · next scalar made =>
          obtain ⟨number, found, converted⟩ := Option.bind_eq_some_iff.mp made
          rintro _ ⟨⟩
          have bare : ∀ part ∈ (Cell.scalar scalar).parts, store.size ≤ part :=
            fun _ member => absurd member List.not_mem_nil
          exact ⟨rfl, .inl rfl, store, .scalar scalar, .refl store, bare,
            .number rfl found converted, rfl⟩
      · rintro _ ⟨⟩
  | dictionary | host =>
      dsimp only
      split
      · simp only [after_run_bind, after_run_lift]
        apply copies.imp
        intro outcome grown copied
        cases outcome with
        | none => rintro _ ⟨⟩
        | some copy =>
            rintro _ ⟨⟩
            exact ⟨rfl, .inr (.inl rfl), writes rfl copied⟩
      · rintro _ ⟨⟩
  | boolean | string | duration | timePoint | array => exact overwrites rfl

/-- What a construction and an assignment make of two values of the same structure has
the same structure, unless the rules for numbers say something else. -/
theorem Fills.resembles_iff {same : Value → Value → Prop}
    {left right leftAfter rightAfter : Store} {source other : Value} {kind : StoredKind}
    {rule otherRule : Number → Option Scalar} {cell otherCell : Cell}
    (fills : source.Fills left kind rule leftAfter cell)
    (otherFills : other.Fills right kind otherRule rightAfter otherCell)
    (resembles : source.Resembles same left right other) :
    cell.Resembles same leftAfter rightAfter otherCell ↔ (kind.isNumeric → ∀ number,
      number? left source = some number → rule number = otherRule number) := by
  have numbers : number? left source = number? right other := by
    rw [number?, number?, resembles.scalar?_eq]
  cases fills with
  | @number number scalar numeric found converted =>
      cases otherFills with
      | copy plain => exact absurd numeric (by simp [plain])
      | @number otherNumber otherScalar _ otherFound otherConverted =>
          cases (found.symm.trans numbers).trans otherFound
          constructor
          · intro alike _ other atSource
            cases found.symm.trans atSource
            rw [converted, otherConverted, Cell.Form.scalar.inj alike.form]
          · intro agree
            have same := (converted.symm.trans (agree numeric number found)).trans otherConverted
            cases same
            exact ⟨rfl, nofun⟩
  | copy plain isSource found alike =>
      cases otherFills with
      | number numeric => exact absurd numeric (by simp [plain])
      | copy _ isOther otherFound otherAlike =>
          subst isSource isOther
          refine iff_of_true ?_ fun numeric => absurd numeric (by simp [plain])
          cases resembles with
          | bare bare => cases bare
          | stored foundAgain otherFoundAgain form values =>
              cases found.symm.trans foundAgain
              cases otherFound.symm.trans otherFoundAgain
              exact Cell.Resembles.copies ⟨form, values⟩ alike otherAlike

theorem construct_error {source : Value} (error : source.isError) (now : Instant) (kind : Kind) :
    After (construct now kind source).run store fun outcome final => ∀ held,
      outcome = .ok held → held = source ∧ final = store := by
  cases source with
  | error tag message location =>
      cases kind with
      | stored | error =>
          rintro _ ⟨⟩
          exact ⟨rfl, rfl⟩
      | void | memberFunction | freeFunction | workflow | workflowInvocation => rintro _ ⟨⟩
  | _ => cases error

theorem assign_error {source : Value} (error : source.isError) (target : Value) :
    After (assign target source).run store fun outcome final => ∀ result,
      outcome = .ok result → result = source ∧ final = store := by
  unfold assign
  simp only [after_run_bind, after_run_get]
  rw [if_pos error]
  rintro _ ⟨⟩
  exact ⟨rfl, rfl⟩

/-- A target without a cell only takes values of its own kind. -/
theorem assign_bare {target source : Value} (bare : target.address? = none)
    (noError : source.isError = false) :
    After (assign target source).run store fun outcome _ => ∀ result,
      outcome = .ok result → target.kind = source.kind := by
  have same : After (assignSame target source).run store fun outcome _ => ∀ result,
      outcome = .ok result → target.kind = source.kind := by
    unfold assignSame
    split
    · next agree => exact fun _ _ => agree
    · rintro _ ⟨⟩
  unfold assign
  simp only [after_run_bind, after_run_get]
  rw [if_neg (by simp [noError])]
  cases target with
  | stored => cases bare
  | _ => exact same

end Value

theorem number?_integer {source : Value} {number : Int64}
    (found : Value.number? store source = some (.integer number)) :
    store.integer? source = some number := by
  obtain ⟨scalar, atSource, isNumber⟩ := Option.bind_eq_some_iff.mp found
  cases scalar with
  | integer value =>
      cases isNumber
      rw [Store.integer?, atSource]
  | _ => cases isNumber

/-- What remains of the condition for numbers: only declared integers are rounded. -/
theorem numbers_agree_iff {source : Value} {kind : StoredKind} :
    (kind.isNumeric → ∀ number, Value.number? store source = some number →
      Scalar.convertNumber? number kind = Value.assignedNumber kind number) ↔
    (kind = .integer → ∀ number, store.integer? source = some number →
      Real.toInt64 (Real.ofInt64 number) = number) := by
  constructor
  · rintro agree rfl number found
    have atSource : Value.number? store source = some (.integer number) := by
      rw [Value.number?, Value.integer?_scalar found]
      rfl
    have same := agree rfl _ atSource
    simp only [Scalar.convertNumber?, Number.toReal, Value.assignedNumber, if_true] at same
    exact Scalar.integer.inj (Option.some.inj same)
  · intro exact numeric number found
    cases kind with
    | integer =>
        cases number with
        | real => rfl
        | integer number =>
            have integer := number?_integer found
            simp only [Scalar.convertNumber?, Number.toReal, exact rfl number integer]
            rfl
    | real => cases number <;> rfl
    | _ => cases numeric

/-! ## Construction and assignment -/

section

variable {same : Value → Value → Prop} {left right : Store} {source other : Value}

/-- What a declaration and an assignment make of values of the same structure, once the
assignment finds a variable of the declared kind. -/
theorem Value.construct_agrees (leftSound : left.Sound allowed) (rightSound : right.Sound allowed)
    (within : source.Within allowed left.size) (otherWithin : other.Within allowed right.size)
    (typed : source.Typed left) (resembles : source.Resembles same left right other)
    (kinds : ∀ value other, same value other → value.kind = other.kind)
    (noError : source.isError = false) {kind : StoredKind} {address : Nat}
    (inBounds : address < right.size) {now : Instant} {held result : Value}
    {leftAfter rightAfter : Store}
    (constructs : (construct now (.stored kind) source).run.run left = (.ok held, leftAfter))
    (assigns : ((Value.stored kind address).assign other).run.run right = (.ok result, rightAfter)) :
    held.kind = .stored kind ∧ result.kind = .stored kind ∧
      (held.Resembles same leftAfter rightAfter result ↔ (kind.isNumeric → ∀ number,
        number? left source = some number →
          Scalar.convertNumber? number kind = assignedNumber kind number)) := by
  have sameKind := resembles.kind_eq kinds
  have otherNoError : other.isError = false := (isError_congr sameKind).symm.trans noError
  obtain ⟨rank, ranked⟩ := rightSound.ranked
  obtain ⟨rfl, suits, refills⟩ := (assign_refills rightSound.backed ranked otherWithin.backed
    otherNoError kind address).of_run assigns result rfl
  obtain ⟨otherCell, otherFound, otherFills⟩ := refills.fills inBounds
  have suitable : source.Suits kind := by
    unfold Suits at suits ⊢
    rwa [sameKind]
  have valued : source.isVoid = false := (isVoid_congr sameKind).trans otherFills.valued
  obtain ⟨target, cell, rfl, found, fills⟩ :=
    (construct_fills leftSound within typed suitable valued noError now).of_run constructs held rfl
  exact ⟨rfl, rfl, (Iff.intro (fun alike => alike.cells found otherFound)
    (fun alike => .of_cells found otherFound alike)).trans
      (fills.resembles_iff otherFills resembles)⟩

/-- Only nothing makes a void. -/
theorem Value.construct_void {now : Instant} {held : Value} {after : Store}
    (constructs : (construct now .void source).run.run left = (.ok held, after)) :
    source = .void ∧ held = .void := by
  cases source with
  | void =>
      cases constructs
      exact ⟨rfl, rfl⟩
  | _ => cases constructs

theorem Value.assign_void {result : Value} {after : Store}
    (assigns : (Value.void.assign .void).run.run right = (.ok result, after)) : result = .void := by
  cases assigns
  rfl

end

end FlowScript
