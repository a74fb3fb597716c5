import FlowScript.Proofs.Grammar.Placement

/-!
# How far a match gets

The matcher remembers the furthest place at which a rule was tried in vain. That place
stands between two characters, it never moves back, and it is not before the end of
input that a program asks for behind its statements.
-/

set_option autoImplicit false

namespace FlowScript

/-- Whole characters stand before the offset. -/
def Text.IsBoundary (source : Text) (offset : Nat) : Prop :=
  ∃ before after, source = before ++ after ∧ offset = before.byteSize

namespace Text.IsBoundary

variable {source : Text} {offset other : Nat}

theorem le_size (boundary : source.IsBoundary offset) : offset ≤ source.byteSize := by
  obtain ⟨before, after, rfl, rfl⟩ := boundary
  simp

theorem max (boundary : source.IsBoundary offset) (otherBoundary : source.IsBoundary other) :
    source.IsBoundary (max offset other) := by
  rcases Nat.le_total offset other with le | le
  · rwa [Nat.max_eq_right le]
  · rwa [Nat.max_eq_left le]

end Text.IsBoundary

namespace Grammar

variable {ρ : Type} {source : Text}

namespace Cursor.Advances

variable {cursor next : Cursor}

theorem offset_le (advances : cursor.Advances source next) : cursor.offset ≤ next.offset := by
  obtain ⟨before, inside, after, -, rfl, rfl⟩ := advances.placed
  simp

theorem isBoundary (advances : cursor.Advances source next) :
    source.IsBoundary cursor.offset := by
  obtain ⟨before, inside, after, same, rfl, -⟩ := advances.placed
  exact ⟨before, inside ++ after, same, rfl⟩

end Cursor.Advances

/-! ## The furthest place of an outcome -/

/-- A match goes on in the text. The furthest place is one of the text, and not before the
one that was known already. -/
def Outcome.Remembers (outcome : Outcome ρ) (source : Text) (cursor : Cursor) (furthest : Nat) :
    Prop :=
  match outcome with
  | .matched _ next reached =>
      cursor.Advances source next ∧ furthest ≤ reached ∧ source.IsBoundary reached
  | .failed reached => furthest ≤ reached ∧ source.IsBoundary reached
  | .exhausted => True

namespace Outcome.Remembers

variable {cursor middle : Cursor} {furthest reached : Nat} {outcome : Outcome ρ}

/-- An outcome further on is an outcome of the whole. -/
theorem from_start (remembers : outcome.Remembers source middle reached)
    (advances : cursor.Advances source middle) (le : furthest ≤ reached) :
    outcome.Remembers source cursor furthest := by
  cases outcome with
  | matched nodes next last =>
      obtain ⟨onward, further, boundary⟩ := remembers
      exact ⟨advances.trans onward, Nat.le_trans le further, boundary⟩
  | failed last => exact ⟨Nat.le_trans le remembers.1, remembers.2⟩
  | exhausted => trivial

theorem bind {next : List (Node ρ) → Cursor → Nat → Outcome ρ}
    (first : outcome.Remembers source cursor furthest)
    (rest : ∀ nodes middle reached, cursor.Advances source middle →
      source.IsBoundary reached → (next nodes middle reached).Remembers source middle reached) :
    (outcome.bind next).Remembers source cursor furthest := by
  cases outcome with
  | matched nodes middle reached =>
      obtain ⟨advances, le, boundary⟩ := first
      exact (rest nodes middle reached advances boundary).from_start advances le
  | failed reached => exact first
  | exhausted => trivial

theorem orElse {other : Nat → Outcome ρ} (start : cursor.Advances source cursor)
    (first : outcome.Remembers source cursor furthest)
    (second : ∀ reached, source.IsBoundary reached →
      (other reached).Remembers source cursor reached) :
    (outcome.orElse other).Remembers source cursor furthest := by
  cases outcome with
  | matched nodes middle reached => exact first
  | failed reached => exact (second reached first.2).from_start start first.1
  | exhausted => trivial

theorem prepend (nodes : List (Node ρ)) (remembers : outcome.Remembers source cursor furthest) :
    (outcome.prepend nodes).Remembers source cursor furthest := by
  cases outcome with
  | matched more next reached => exact remembers
  | failed reached => exact remembers
  | exhausted => trivial

end Outcome.Remembers

section

variable {grammar : Grammar ρ} {fuel : Nat} {cursor : Cursor} {furthest : Nat}
  (remembers : ∀ expression mode cursor furthest, cursor.Advances source cursor →
    source.IsBoundary furthest →
    (grammar.run fuel expression mode cursor furthest).Remembers source cursor furthest)
  (start : cursor.Advances source cursor) (boundary : source.IsBoundary furthest)

include remembers start boundary

theorem runGap_remembers (mode : Mode) :
    (grammar.runGap fuel mode cursor furthest).Remembers source cursor furthest := by
  unfold runGap
  split
  · exact remembers _ _ _ _ start boundary
  · exact ⟨start, Nat.le_refl _, boundary⟩

theorem rule_remembers (name : ρ) (mode : Mode) :
    (grammar.run (fuel + 1) (.rule name) mode cursor furthest).Remembers source cursor
      furthest := by
  have inside := remembers (grammar.rules name).body ((grammar.rules name).mode.getD mode) cursor
    furthest start boundary
  rw [run_rule]
  split
  · next ran =>
      rw [ran] at inside
      split <;> exact inside
  · next reached ran =>
      rw [ran] at inside
      split
      · exact ⟨Nat.le_trans inside.1 (Nat.le_max_left _ _), inside.2.max start.isBoundary⟩
      · exact inside
  · trivial

theorem sequence_remembers (first second : Expression ρ) (mode : Mode) :
    (grammar.run (fuel + 1) (.sequence first second) mode cursor furthest).Remembers source cursor
      furthest := by
  rw [run_sequence]
  apply (remembers first mode cursor furthest start boundary).bind
  intro nodes middle reached advances reachedBoundary
  apply (runGap_remembers remembers advances.refl reachedBoundary mode).bind
  intro _ next last onward lastBoundary
  exact (remembers second mode next last onward.refl lastBoundary).prepend nodes

omit boundary in
/-- The rounds of a repetition behind a first one. -/
theorem rounds_remember (body : Expression ρ) (mode : Mode) {outcome : Outcome ρ}
    (round : outcome.Remembers source cursor furthest) :
    Outcome.Remembers
      (match outcome with
        | .matched nodes next reached =>
            (grammar.run fuel (.manyMore body) mode next reached).prepend nodes
        | .failed reached => .matched [] cursor reached
        | .exhausted => .exhausted) source cursor furthest := by
  cases outcome with
  | matched nodes next reached =>
      obtain ⟨advances, le, reachedBoundary⟩ := round
      have more := remembers (.manyMore body) mode next reached advances.refl reachedBoundary
      exact (more.from_start advances le).prepend nodes
  | failed reached => exact ⟨start, round⟩
  | exhausted => trivial

theorem many_remembers (body : Expression ρ) (mode : Mode) :
    (grammar.run (fuel + 1) (.many body) mode cursor furthest).Remembers source cursor
      furthest :=
  rounds_remember remembers start body mode
    (remembers body mode cursor furthest start boundary)

theorem manyMore_remembers (body : Expression ρ) (mode : Mode) :
    (grammar.run (fuel + 1) (.manyMore body) mode cursor furthest).Remembers source cursor
      furthest := by
  apply rounds_remember remembers start body mode
  apply (runGap_remembers remembers start boundary mode).bind
  exact fun _ next reached advances reachedBoundary =>
    remembers body mode next reached advances.refl reachedBoundary

end

/-- Whatever is matched, the furthest place stays in the text and never moves back. -/
theorem run_remembers (grammar : Grammar ρ) (fuel : Nat) (expression : Expression ρ) (mode : Mode)
    {cursor : Cursor} {furthest : Nat} (start : cursor.Advances source cursor)
    (boundary : source.IsBoundary furthest) :
    (grammar.run fuel expression mode cursor furthest).Remembers source cursor furthest := by
  induction fuel generalizing expression mode cursor furthest with
  | zero => trivial
  | succ fuel ih =>
      have remembers : ∀ expression mode cursor furthest, cursor.Advances source cursor →
          source.IsBoundary furthest →
          (grammar.run fuel expression mode cursor furthest).Remembers source cursor furthest :=
        fun expression mode _ _ start boundary => ih expression mode start boundary
      cases expression with
      | empty => exact ⟨start, Nat.le_refl _, boundary⟩
      | text chars =>
          unfold run
          dsimp only
          split
          · next taken => exact ⟨start.take? taken, Nat.le_refl _, boundary⟩
          · exact ⟨Nat.le_refl _, boundary⟩
      | oneOf accepts =>
          unfold run
          dsimp only
          split
          · next taken => exact ⟨start.takeOne? taken, Nat.le_refl _, boundary⟩
          · exact ⟨Nat.le_refl _, boundary⟩
      | endOfInput =>
          unfold run
          dsimp only
          split
          · exact ⟨start, Nat.le_refl _, boundary⟩
          · exact ⟨Nat.le_refl _, boundary⟩
      | rule name => exact rule_remembers remembers start boundary name mode
      | sequence first second => exact sequence_remembers remembers start boundary first second mode
      | choice first second =>
          apply (ih first mode start boundary).orElse start
          exact fun reached reachedBoundary => ih second mode start reachedBoundary
      | optional body =>
          apply (ih body mode start boundary).orElse start
          exact fun reached reachedBoundary => ⟨start, Nat.le_refl _, reachedBoundary⟩
      | many body => exact many_remembers remembers start boundary body mode
      | manyMore body => exact manyMore_remembers remembers start boundary body mode
      | absent body =>
          unfold run
          dsimp only
          split
          · exact ⟨Nat.le_refl _, boundary⟩
          · exact ⟨start, Nat.le_refl _, boundary⟩
          · trivial

/-! ## Where a match fails -/

theorem Outcome.bind_eq_failed {outcome : Outcome ρ}
    {next : List (Node ρ) → Cursor → Nat → Outcome ρ} {reached : Nat}
    (failed : outcome.bind next = .failed reached) :
    outcome = .failed reached ∨ ∃ nodes cursor furthest,
      outcome = .matched nodes cursor furthest ∧ next nodes cursor furthest = .failed reached := by
  cases outcome with
  | matched nodes cursor furthest => exact .inr ⟨nodes, cursor, furthest, rfl, failed⟩
  | failed other => exact .inl failed
  | exhausted => cases failed

/-- A sequence fails in its first part, or in its second one behind trivia. -/
theorem run_sequence_failed {grammar : Grammar ρ} (patient : grammar.Patient) {fuel : Nat}
    {first second : Expression ρ} {mode : Mode} {cursor : Cursor} {furthest reached : Nat}
    (failed : grammar.run fuel (.sequence first second) mode cursor furthest = .failed reached) :
    grammar.Yields first mode cursor none ∨
      ∃ left between fuel furthest, grammar.Yields first mode cursor (some left) ∧
        grammar.Yields (grammar.gap mode) .sealed left.cursor (some between) ∧
        grammar.run fuel second mode between.cursor furthest = .failed reached := by
  cases fuel with
  | zero => cases failed
  | succ fuel =>
      have shows := run_shows patient fuel
      have firstShows := shows first mode cursor furthest
      rw [run_sequence] at failed
      rcases Outcome.bind_eq_failed failed with fails | ⟨nodes, middle, further, ran, failed⟩
      · rw [fails] at firstShows
        exact .inl firstShows
      · rw [ran] at firstShows
        obtain ⟨tokens, left⟩ := firstShows
        have gapShows := runGap_shows shows mode middle further
        rcases Outcome.bind_eq_failed failed with fails | ⟨_, next, last, skipped, failed⟩
        · rw [fails] at gapShows
          exact absurd gapShows patient.gap_matches
        · rw [skipped] at gapShows
          obtain ⟨_, between⟩ := gapShows
          refine .inr ⟨_, _, fuel, last, left, between, ?_⟩
          rcases Outcome.bind_eq_failed failed with fails | ⟨_, _, _, _, matched⟩
          · exact fails
          · cases matched

/-- A rule fails where its body does. -/
theorem run_rule_body_failed {grammar : Grammar ρ} {fuel : Nat} {name : ρ} {mode : Mode}
    {cursor : Cursor} {furthest reached : Nat}
    (failed : grammar.run fuel (.rule name) mode cursor furthest = .failed reached) :
    ∃ fuel inner, inner ≤ reached ∧ grammar.run fuel (grammar.rules name).body
      ((grammar.rules name).mode.getD mode) cursor furthest = .failed inner := by
  cases fuel with
  | zero => cases failed
  | succ fuel =>
      rw [run_rule] at failed
      split at failed
      · split at failed <;> cases failed
      · next inner ran =>
          refine ⟨fuel, inner, ?_, ran⟩
          split at failed
          · cases failed
            exact Nat.le_max_left _ _
          · cases failed
            exact Nat.le_refl _
      · cases failed

/-- The place where a traced rule failed is remembered. -/
theorem run_rule_failed {grammar : Grammar ρ} {fuel : Nat} {name : ρ} {mode : Mode}
    {cursor : Cursor} {furthest reached : Nat} (visible : mode ≠ .sealed)
    (traced : (grammar.rules name).traced)
    (failed : grammar.run fuel (.rule name) mode cursor furthest = .failed reached) :
    cursor.offset ≤ reached := by
  cases fuel with
  | zero => cases failed
  | succ fuel =>
      rw [run_rule] at failed
      split at failed
      · split at failed <;> cases failed
      · rw [if_pos ⟨visible, traced⟩] at failed
        cases failed
        exact Nat.le_max_right _ _
      · cases failed

/-! ## The statements of a program -/

/-- The statements at the front of the text are finished, and the cursor is at the place
behind them, blanks and comments skipped, where the next one may begin. -/
inductive Finished (source : Text) : List (Node Rule) → Cursor → Prop where
  | start {between : Match Rule} :
      flow.Yields (flow.gap .spaced) .sealed ⟨source, 0⟩ (some between) →
      Finished source [] between.cursor
  | statement {statements : List (Node Rule)} {cursor : Cursor} {found between : Match Rule} :
      Finished source statements cursor →
      flow.Yields (.rule .statement) .spaced cursor (some found) →
      flow.Yields (flow.gap .spaced) .sealed found.cursor (some between) →
      Finished source (statements ++ found.nodes) between.cursor

theorem Finished.advances {statements : List (Node Rule)} {cursor : Cursor}
    (finished : Finished source statements cursor) :
    cursor.Advances source cursor ∧ ∀ statement ∈ statements, statement.stop ≤ cursor.offset := by
  induction finished with
  | start gap =>
      have begins : Cursor.Advances source ⟨source, 0⟩ ⟨source, 0⟩ :=
        ⟨[], [], source, rfl, rfl, rfl⟩
      exact ⟨(gap.placed begins _ rfl).advances.refl, nofun⟩
  | statement _ yields gap ih =>
      have advances := (yields.placed ih.1 _ rfl).advances
      have onward := (gap.placed advances.refl _ rfl).advances
      refine ⟨onward.refl, List.forall_mem_append.mpr ⟨?_, ?_⟩⟩
      · intro statement member
        have le := ih.2 statement member
        exact Nat.le_trans le (advances.trans onward).offset_le
      · cases yields with
        | rule body =>
            intro statement member
            rw [List.mem_singleton.mp member]
            exact onward.offset_le

/-- Behind the statements that a repetition finds stands something that is none. -/
theorem Finished.rounds {statements : List (Node Rule)} {cursor : Cursor} {more : Match Rule}
    (yields : flow.Yields (.manyMore (.rule .statement)) .spaced cursor (some more))
    (finished : ∀ between : Match Rule,
      flow.Yields (flow.gap .spaced) .sealed cursor (some between) →
      Finished source statements between.cursor) :
    ∃ between : Match Rule, flow.Yields (flow.gap .spaced) .sealed more.cursor (some between) ∧
      Finished source (statements ++ more.nodes) between.cursor ∧
      flow.Yields (.rule .statement) .spaced between.cursor none := by
  generalize shape : Expression.manyMore (Expression.rule Rule.statement) = expression at yields
  generalize result : some more = outcome at yields
  generalize around : Mode.spaced = mode at yields
  induction yields generalizing statements more with
  | manyMore gap body _ _ _ ih =>
      cases shape
      cases result
      cases around
      obtain ⟨between, onward, whole, fails⟩ := ih
        (fun next skipped => (finished _ gap).statement body skipped) rfl rfl rfl
      rw [List.append_assoc] at whole
      exact ⟨between, onward, whole, fails⟩
  | manyMoreEnds gap fails =>
      cases shape
      cases result
      cases around
      refine ⟨_, gap, ?_, fails⟩
      rw [Match.empty, List.append_nil]
      exact finished _ gap
  | _ => cases shape

/-- Behind the statements of a program stands something that is no statement, and it stands
no further than the trivia behind the statements goes. -/
theorem Finished.of_many {cursor : Cursor} {found between : Match Rule}
    (finished : Finished source [] cursor)
    (yields : flow.Yields (.many (.rule .statement)) .spaced cursor (some found))
    (gap : flow.Yields (flow.gap .spaced) .sealed found.cursor (some between)) :
    ∃ next : Cursor, Finished source found.nodes next ∧
      flow.Yields (.rule .statement) .spaced next none ∧ next.offset ≤ between.cursor.offset := by
  cases yields with
  | many body more =>
      obtain ⟨next, skipped, whole, fails⟩ :=
        Finished.rounds more fun _ skipped => finished.statement body skipped
      cases skipped.unique gap
      exact ⟨_, whole, fails, Nat.le_refl _⟩
  | manyEnds fails =>
      exact ⟨cursor, finished, fails, (gap.placed finished.advances.1 _ rfl).advances.offset_le⟩

/-- Where a program fails, it does not fail before the first text that is no statement. -/
theorem run_program_failed {fuel furthest reached : Nat}
    (failed : flow.run fuel (.rule .program) .spaced ⟨source, 0⟩ furthest = .failed reached) :
    ∃ statements cursor, Finished source statements cursor ∧
      flow.Yields (.rule .statement) .spaced cursor none ∧ cursor.offset ≤ reached := by
  obtain ⟨fuel, inner, le, failed⟩ := run_rule_body_failed failed
  rcases run_sequence_failed flow_patient failed with fails |
    ⟨left, start, fuel, furthest, first, skipped, failed⟩
  · cases fails
  · cases first
    rcases run_sequence_failed flow_patient failed with fails |
      ⟨found, between, fuel, furthest, statements, gap, failed⟩
    · cases fails
    · obtain ⟨cursor, finished, fails, before⟩ := (Finished.start skipped).of_many statements gap
      have ends := run_rule_failed (by decide) rfl failed
      exact ⟨found.nodes, cursor, finished, fails,
        Nat.le_trans before (Nat.le_trans ends le)⟩

end Grammar

end FlowScript
