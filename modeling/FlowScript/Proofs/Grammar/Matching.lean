import FlowScript.Grammar.Matcher

/-!
# What expressions match

The relation `Grammar.Yields` says what an expression does from a cursor, without
fuel and without the bookkeeping of diagnostics: it matches a stretch of the text,
or it does not match. A match also tells its tokens. Those are the stretches that
are matched without regard to trivia where trivia may stand around them.
-/

set_option autoImplicit false

namespace FlowScript.Grammar

variable {ρ : Type}

/-- What may stand between two parts. -/
def gap (grammar : Grammar ρ) (mode : Mode) : Expression ρ :=
  if mode = .spaced then grammar.trivia else .empty

/-- A stretch of the text, between two byte offsets. -/
structure Stretch where
  start : Nat
  stop : Nat
  deriving DecidableEq, Repr

structure Match (ρ : Type) where
  nodes : List (Node ρ)
  cursor : Cursor
  tokens : List Stretch

namespace Match

def empty (cursor : Cursor) : Match ρ := ⟨[], cursor, []⟩

/-- A match of characters. They are a token unless they are part of one. -/
def chars (mode : Mode) (start next : Cursor) : Match ρ :=
  ⟨[], next, if mode = .spaced then [⟨start.offset, next.offset⟩] else []⟩

/-- One match behind another. -/
def append (first second : Match ρ) : Match ρ :=
  ⟨first.nodes ++ second.nodes, second.cursor, first.tokens ++ second.tokens⟩

/-- The match of a rule, from the match of its body. -/
def close (name : ρ) (definition : RuleDefinition ρ) (mode : Mode) (start : Cursor)
    (body : Match ρ) : Match ρ where
  nodes :=
    if mode ≠ .sealed ∧ definition.captured then
      [.node name start.offset body.cursor.offset body.nodes]
    else body.nodes
  cursor := body.cursor
  tokens :=
    if mode = .spaced ∧ definition.mode.isSome then
      [⟨start.offset, body.cursor.offset⟩]
    else body.tokens

end Match

/-- What the expression does from the cursor: a match, or none. -/
inductive Yields (grammar : Grammar ρ) :
    Expression ρ → Mode → Cursor → Option (Match ρ) → Prop where
  | empty {mode : Mode} {cursor : Cursor} : Yields grammar .empty mode cursor (some (.empty cursor))
  | text {chars : List Char} {mode : Mode} {cursor next : Cursor} :
      cursor.take? chars = some next →
      Yields grammar (.text chars) mode cursor (some (.chars mode cursor next))
  | textFails {chars : List Char} {mode : Mode} {cursor : Cursor} :
      cursor.take? chars = none → Yields grammar (.text chars) mode cursor none
  | oneOf {accepts : Char → Bool} {mode : Mode} {cursor next : Cursor} :
      cursor.takeOne? accepts = some next →
      Yields grammar (.oneOf accepts) mode cursor (some (.chars mode cursor next))
  | oneOfFails {accepts : Char → Bool} {mode : Mode} {cursor : Cursor} :
      cursor.takeOne? accepts = none → Yields grammar (.oneOf accepts) mode cursor none
  | endOfInput {mode : Mode} {cursor : Cursor} :
      cursor.rest = [] → Yields grammar .endOfInput mode cursor (some (.empty cursor))
  | endOfInputFails {mode : Mode} {cursor : Cursor} :
      cursor.rest ≠ [] → Yields grammar .endOfInput mode cursor none
  | rule {name : ρ} {mode : Mode} {cursor : Cursor} {body : Match ρ} :
      Yields grammar (grammar.rules name).body ((grammar.rules name).mode.getD mode) cursor
        (some body) →
      Yields grammar (.rule name) mode cursor
        (some (.close name (grammar.rules name) mode cursor body))
  | ruleFails {name : ρ} {mode : Mode} {cursor : Cursor} :
      Yields grammar (grammar.rules name).body ((grammar.rules name).mode.getD mode) cursor none →
      Yields grammar (.rule name) mode cursor none
  | sequence {first second : Expression ρ} {mode : Mode} {cursor : Cursor}
      {left between right : Match ρ} :
      Yields grammar first mode cursor (some left) →
      Yields grammar (grammar.gap mode) .sealed left.cursor (some between) →
      Yields grammar second mode between.cursor (some right) →
      Yields grammar (.sequence first second) mode cursor (some (left.append right))
  | sequenceFails {first second : Expression ρ} {mode : Mode} {cursor : Cursor} :
      Yields grammar first mode cursor none →
      Yields grammar (.sequence first second) mode cursor none
  | sequenceBreaks {first second : Expression ρ} {mode : Mode} {cursor : Cursor}
      {left between : Match ρ} :
      Yields grammar first mode cursor (some left) →
      Yields grammar (grammar.gap mode) .sealed left.cursor (some between) →
      Yields grammar second mode between.cursor none →
      Yields grammar (.sequence first second) mode cursor none
  | choice {first second : Expression ρ} {mode : Mode} {cursor : Cursor} {left : Match ρ} :
      Yields grammar first mode cursor (some left) →
      Yields grammar (.choice first second) mode cursor (some left)
  | choiceElse {first second : Expression ρ} {mode : Mode} {cursor : Cursor}
      {result : Option (Match ρ)} :
      Yields grammar first mode cursor none → Yields grammar second mode cursor result →
      Yields grammar (.choice first second) mode cursor result
  | optional {body : Expression ρ} {mode : Mode} {cursor : Cursor} {found : Match ρ} :
      Yields grammar body mode cursor (some found) →
      Yields grammar (.optional body) mode cursor (some found)
  | optionalSkips {body : Expression ρ} {mode : Mode} {cursor : Cursor} :
      Yields grammar body mode cursor none →
      Yields grammar (.optional body) mode cursor (some (.empty cursor))
  | many {body : Expression ρ} {mode : Mode} {cursor : Cursor} {found more : Match ρ} :
      Yields grammar body mode cursor (some found) →
      Yields grammar (.manyMore body) mode found.cursor (some more) →
      Yields grammar (.many body) mode cursor (some (found.append more))
  | manyEnds {body : Expression ρ} {mode : Mode} {cursor : Cursor} :
      Yields grammar body mode cursor none →
      Yields grammar (.many body) mode cursor (some (.empty cursor))
  | manyMore {body : Expression ρ} {mode : Mode} {cursor : Cursor}
      {between found more : Match ρ} :
      Yields grammar (grammar.gap mode) .sealed cursor (some between) →
      Yields grammar body mode between.cursor (some found) →
      Yields grammar (.manyMore body) mode found.cursor (some more) →
      Yields grammar (.manyMore body) mode cursor (some (found.append more))
  | manyMoreEnds {body : Expression ρ} {mode : Mode} {cursor : Cursor} {between : Match ρ} :
      Yields grammar (grammar.gap mode) .sealed cursor (some between) →
      Yields grammar body mode between.cursor none →
      Yields grammar (.manyMore body) mode cursor (some (.empty cursor))
  | absent {body : Expression ρ} {mode : Mode} {cursor : Cursor} :
      Yields grammar body mode cursor none →
      Yields grammar (.absent body) mode cursor (some (.empty cursor))
  | absentFails {body : Expression ρ} {mode : Mode} {cursor : Cursor} {found : Match ρ} :
      Yields grammar body mode cursor (some found) →
      Yields grammar (.absent body) mode cursor none

/-! ## Matching is deterministic -/

theorem Yields.unique {grammar : Grammar ρ} {expression : Expression ρ} {mode : Mode}
    {cursor : Cursor} {result other : Option (Match ρ)}
    (yields : grammar.Yields expression mode cursor result)
    (otherYields : grammar.Yields expression mode cursor other) : result = other := by
  induction yields generalizing other with
  | empty => cases otherYields; rfl
  | text taken =>
      cases otherYields with
      | text otherTaken => cases taken.symm.trans otherTaken; rfl
      | textFails fails => cases taken.symm.trans fails
  | textFails fails =>
      cases otherYields with
      | text taken => cases taken.symm.trans fails
      | textFails => rfl
  | oneOf taken =>
      cases otherYields with
      | oneOf otherTaken => cases taken.symm.trans otherTaken; rfl
      | oneOfFails fails => cases taken.symm.trans fails
  | oneOfFails fails =>
      cases otherYields with
      | oneOf taken => cases taken.symm.trans fails
      | oneOfFails => rfl
  | endOfInput ends =>
      cases otherYields with
      | endOfInput => rfl
      | endOfInputFails goes => exact absurd ends goes
  | endOfInputFails goes =>
      cases otherYields with
      | endOfInput ends => exact absurd ends goes
      | endOfInputFails => rfl
  | rule _ ih =>
      cases otherYields with
      | rule body => cases ih body; rfl
      | ruleFails fails => cases ih fails
  | ruleFails _ ih =>
      cases otherYields with
      | rule body => cases ih body
      | ruleFails => rfl
  | sequence _ _ _ first between second =>
      cases otherYields with
      | sequence left gap right =>
          cases first left
          cases between gap
          cases second right
          rfl
      | sequenceFails left => cases first left
      | sequenceBreaks left gap right =>
          cases first left
          cases between gap
          cases second right
  | sequenceFails _ first =>
      cases otherYields with
      | sequence left => cases first left
      | sequenceFails => rfl
      | sequenceBreaks left => rfl
  | sequenceBreaks _ _ _ first between second =>
      cases otherYields with
      | sequence left gap right =>
          cases first left
          cases between gap
          cases second right
      | sequenceFails => rfl
      | sequenceBreaks => rfl
  | choice _ ih =>
      cases otherYields with
      | choice left => exact ih left
      | choiceElse left => cases ih left
  | choiceElse _ _ first second =>
      cases otherYields with
      | choice left => cases first left
      | choiceElse _ right => exact second right
  | optional _ ih =>
      cases otherYields with
      | optional body => exact ih body
      | optionalSkips body => cases ih body
  | optionalSkips _ ih =>
      cases otherYields with
      | optional body => cases ih body
      | optionalSkips => rfl
  | many _ _ first rest =>
      cases otherYields with
      | many body more =>
          cases first body
          cases rest more
          rfl
      | manyEnds body => cases first body
  | manyEnds _ ih =>
      cases otherYields with
      | many body => cases ih body
      | manyEnds => rfl
  | manyMore _ _ _ between first rest =>
      cases otherYields with
      | manyMore gap body more =>
          cases between gap
          cases first body
          cases rest more
          rfl
      | manyMoreEnds gap body =>
          cases between gap
          cases first body
  | manyMoreEnds _ _ between first =>
      cases otherYields with
      | manyMore gap body =>
          cases between gap
          cases first body
      | manyMoreEnds => rfl
  | absent _ ih =>
      cases otherYields with
      | absent => rfl
      | absentFails body => cases ih body
  | absentFails _ ih =>
      cases otherYields with
      | absent body => cases ih body
      | absentFails => rfl

/-! ## The matcher finds what expressions match -/

/-- The outcome is what the expression does; nothing is said where fuel ran out. -/
def Outcome.Shows (outcome : Outcome ρ) (grammar : Grammar ρ) (expression : Expression ρ)
    (mode : Mode) (cursor : Cursor) : Prop :=
  match outcome with
  | .matched nodes next _ =>
      ∃ tokens, grammar.Yields expression mode cursor (some ⟨nodes, next, tokens⟩)
  | .failed _ => grammar.Yields expression mode cursor none
  | .exhausted => True

/-- Trivia can always be skipped, if only by skipping nothing. -/
def Patient (grammar : Grammar ρ) : Prop :=
  ∀ cursor, ¬grammar.Yields grammar.trivia .sealed cursor none

theorem Patient.gap_matches {grammar : Grammar ρ} (patient : grammar.Patient) {mode : Mode}
    {cursor : Cursor} : ¬grammar.Yields (grammar.gap mode) .sealed cursor none := by
  unfold gap
  split
  · exact patient cursor
  · intro fails
    cases fails

/-- The trivia between two parts, as the matcher skips it. -/
def runGap (grammar : Grammar ρ) (fuel : Nat) (mode : Mode) (cursor : Cursor) (furthest : Nat) :
    Outcome ρ :=
  if mode = .spaced then grammar.run fuel grammar.trivia .sealed cursor furthest
  else .matched [] cursor furthest

theorem run_rule (grammar : Grammar ρ) (fuel : Nat) (name : ρ) (mode : Mode) (cursor : Cursor)
    (furthest : Nat) :
    grammar.run (fuel + 1) (.rule name) mode cursor furthest =
      match grammar.run fuel (grammar.rules name).body ((grammar.rules name).mode.getD mode) cursor
          furthest with
      | .matched nodes next reached =>
          if mode ≠ .sealed ∧ (grammar.rules name).captured then
            .matched [.node name cursor.offset next.offset nodes] next reached
          else .matched nodes next reached
      | .failed reached =>
          if mode ≠ .sealed ∧ (grammar.rules name).traced then .failed (max reached cursor.offset)
          else .failed reached
      | .exhausted => .exhausted := rfl

theorem run_sequence (grammar : Grammar ρ) (fuel : Nat) (first second : Expression ρ)
    (mode : Mode) (cursor : Cursor) (furthest : Nat) :
    grammar.run (fuel + 1) (.sequence first second) mode cursor furthest =
      (grammar.run fuel first mode cursor furthest).bind fun nodes cursor furthest =>
        (grammar.runGap fuel mode cursor furthest).bind fun _ cursor furthest =>
          (grammar.run fuel second mode cursor furthest).prepend nodes := rfl

theorem run_many (grammar : Grammar ρ) (fuel : Nat) (body : Expression ρ) (mode : Mode)
    (cursor : Cursor) (furthest : Nat) :
    grammar.run (fuel + 1) (.many body) mode cursor furthest =
      match grammar.run fuel body mode cursor furthest with
      | .matched nodes next reached =>
          (grammar.run fuel (.manyMore body) mode next reached).prepend nodes
      | .failed reached => .matched [] cursor reached
      | .exhausted => .exhausted := rfl

theorem run_manyMore (grammar : Grammar ρ) (fuel : Nat) (body : Expression ρ) (mode : Mode)
    (cursor : Cursor) (furthest : Nat) :
    grammar.run (fuel + 1) (.manyMore body) mode cursor furthest =
      match (grammar.runGap fuel mode cursor furthest).bind fun _ next reached =>
          grammar.run fuel body mode next reached with
      | .matched nodes next reached =>
          (grammar.run fuel (.manyMore body) mode next reached).prepend nodes
      | .failed reached => .matched [] cursor reached
      | .exhausted => .exhausted := rfl

section

variable {grammar : Grammar ρ} {fuel : Nat}
  (shows : ∀ expression mode cursor furthest,
    (grammar.run fuel expression mode cursor furthest).Shows grammar expression mode cursor)

include shows

theorem runGap_shows (mode : Mode) (cursor : Cursor) (furthest : Nat) :
    (grammar.runGap fuel mode cursor furthest).Shows grammar (grammar.gap mode) .sealed cursor := by
  unfold runGap gap
  split
  · exact shows _ _ _ _
  · exact ⟨[], .empty⟩

theorem rule_shows (name : ρ) (mode : Mode) (cursor : Cursor) (furthest : Nat) :
    (grammar.run (fuel + 1) (.rule name) mode cursor furthest).Shows grammar (.rule name) mode
      cursor := by
  have inside := shows (grammar.rules name).body ((grammar.rules name).mode.getD mode) cursor
    furthest
  rw [run_rule]
  cases ran : grammar.run fuel (grammar.rules name).body ((grammar.rules name).mode.getD mode)
      cursor furthest with
  | exhausted => trivial
  | failed reached =>
      rw [ran] at inside
      have fails : grammar.Yields (.rule name) mode cursor none := .ruleFails inside
      dsimp only
      split <;> exact fails
  | matched nodes next reached =>
      rw [ran] at inside
      obtain ⟨tokens, inside⟩ := inside
      have closed := Yields.rule inside
      dsimp only
      split <;> rename_i visible
      · simp only [Match.close, if_pos visible] at closed
        exact ⟨_, closed⟩
      · simp only [Match.close, if_neg visible] at closed
        exact ⟨_, closed⟩

theorem sequence_shows (patient : grammar.Patient) (first second : Expression ρ) (mode : Mode)
    (cursor : Cursor) (furthest : Nat) :
    (grammar.run (fuel + 1) (.sequence first second) mode cursor furthest).Shows grammar
      (.sequence first second) mode cursor := by
  have left := shows first mode cursor furthest
  rw [run_sequence]
  cases ran : grammar.run fuel first mode cursor furthest with
  | exhausted => trivial
  | failed =>
      rw [ran] at left
      exact .sequenceFails left
  | matched nodes next reached =>
      rw [ran] at left
      obtain ⟨tokens, left⟩ := left
      have between := runGap_shows shows mode next reached
      simp only [Outcome.bind]
      cases skips : grammar.runGap fuel mode next reached with
      | exhausted => trivial
      | failed =>
          rw [skips] at between
          exact absurd between patient.gap_matches
      | matched none skipped further =>
          rw [skips] at between
          obtain ⟨skippedTokens, between⟩ := between
          have right := shows second mode skipped further
          dsimp only
          cases ranSecond : grammar.run fuel second mode skipped further with
          | exhausted => trivial
          | failed =>
              rw [ranSecond] at right
              exact .sequenceBreaks left between right
          | matched =>
              rw [ranSecond] at right
              obtain ⟨more, right⟩ := right
              exact ⟨_, .sequence left between right⟩

theorem many_shows (body : Expression ρ) (mode : Mode) (cursor : Cursor) (furthest : Nat) :
    (grammar.run (fuel + 1) (.many body) mode cursor furthest).Shows grammar (.many body) mode
      cursor := by
  have round := shows body mode cursor furthest
  rw [run_many]
  cases ran : grammar.run fuel body mode cursor furthest with
  | exhausted => trivial
  | failed =>
      rw [ran] at round
      exact ⟨_, .manyEnds round⟩
  | matched nodes next reached =>
      rw [ran] at round
      obtain ⟨tokens, round⟩ := round
      have rest := shows (.manyMore body) mode next reached
      dsimp only
      cases more : grammar.run fuel (.manyMore body) mode next reached with
      | exhausted => trivial
      | failed =>
          rw [more] at rest
          cases rest
      | matched =>
          rw [more] at rest
          obtain ⟨others, rest⟩ := rest
          exact ⟨_, .many round rest⟩

theorem manyMore_shows (patient : grammar.Patient) (body : Expression ρ) (mode : Mode)
    (cursor : Cursor) (furthest : Nat) :
    (grammar.run (fuel + 1) (.manyMore body) mode cursor furthest).Shows grammar (.manyMore body)
      mode cursor := by
  have between := runGap_shows shows mode cursor furthest
  rw [run_manyMore]
  cases skips : grammar.runGap fuel mode cursor furthest with
  | exhausted => trivial
  | failed =>
      rw [skips] at between
      exact absurd between patient.gap_matches
  | matched none skipped further =>
      rw [skips] at between
      obtain ⟨skippedTokens, between⟩ := between
      have round := shows body mode skipped further
      simp only [Outcome.bind]
      cases ran : grammar.run fuel body mode skipped further with
      | exhausted => trivial
      | failed =>
          rw [ran] at round
          exact ⟨_, .manyMoreEnds between round⟩
      | matched nodes next reached =>
          rw [ran] at round
          obtain ⟨tokens, round⟩ := round
          have rest := shows (.manyMore body) mode next reached
          dsimp only
          cases more : grammar.run fuel (.manyMore body) mode next reached with
          | exhausted => trivial
          | failed =>
              rw [more] at rest
              cases rest
          | matched =>
              rw [more] at rest
              obtain ⟨others, rest⟩ := rest
              exact ⟨_, .manyMore between round rest⟩

theorem choice_shows (first second : Expression ρ) (mode : Mode) (cursor : Cursor)
    (furthest : Nat) :
    (grammar.run (fuel + 1) (.choice first second) mode cursor furthest).Shows grammar
      (.choice first second) mode cursor := by
  have left := shows first mode cursor furthest
  change ((grammar.run fuel first mode cursor furthest).orElse _).Shows _ _ _ _
  cases ran : grammar.run fuel first mode cursor furthest with
  | exhausted => trivial
  | matched =>
      rw [ran] at left
      obtain ⟨tokens, left⟩ := left
      exact ⟨_, .choice left⟩
  | failed reached =>
      rw [ran] at left
      have right := shows second mode cursor reached
      change (grammar.run fuel second mode cursor reached).Shows _ _ _ _
      cases ranSecond : grammar.run fuel second mode cursor reached with
      | exhausted => trivial
      | failed =>
          rw [ranSecond] at right
          exact .choiceElse left right
      | matched =>
          rw [ranSecond] at right
          obtain ⟨tokens, right⟩ := right
          exact ⟨_, .choiceElse left right⟩

theorem optional_shows (body : Expression ρ) (mode : Mode) (cursor : Cursor) (furthest : Nat) :
    (grammar.run (fuel + 1) (.optional body) mode cursor furthest).Shows grammar (.optional body)
      mode cursor := by
  have inside := shows body mode cursor furthest
  change ((grammar.run fuel body mode cursor furthest).orElse _).Shows _ _ _ _
  cases ran : grammar.run fuel body mode cursor furthest with
  | exhausted => trivial
  | failed =>
      rw [ran] at inside
      exact ⟨_, .optionalSkips inside⟩
  | matched =>
      rw [ran] at inside
      obtain ⟨tokens, inside⟩ := inside
      exact ⟨_, .optional inside⟩

theorem absent_shows (body : Expression ρ) (mode : Mode) (cursor : Cursor) (furthest : Nat) :
    (grammar.run (fuel + 1) (.absent body) mode cursor furthest).Shows grammar (.absent body)
      mode cursor := by
  have inside := shows body mode cursor furthest
  unfold run
  dsimp only
  cases ran : grammar.run fuel body mode cursor furthest with
  | exhausted => trivial
  | failed =>
      rw [ran] at inside
      exact ⟨_, .absent inside⟩
  | matched =>
      rw [ran] at inside
      obtain ⟨tokens, inside⟩ := inside
      exact .absentFails inside

end

/-- What the matcher finds before its fuel runs out is what the expression does. -/
theorem run_shows {grammar : Grammar ρ} (patient : grammar.Patient) (fuel : Nat)
    (expression : Expression ρ) (mode : Mode) (cursor : Cursor) (furthest : Nat) :
    (grammar.run fuel expression mode cursor furthest).Shows grammar expression mode cursor := by
  induction fuel generalizing expression mode cursor furthest with
  | zero => trivial
  | succ fuel ih =>
      cases expression with
      | empty => exact ⟨_, .empty⟩
      | text chars =>
          unfold run
          dsimp only
          split
          · next taken => exact ⟨_, .text taken⟩
          · next fails => exact .textFails fails
      | oneOf accepts =>
          unfold run
          dsimp only
          split
          · next taken => exact ⟨_, .oneOf taken⟩
          · next fails => exact .oneOfFails fails
      | endOfInput =>
          unfold run
          dsimp only
          split
          · next ends => exact ⟨_, .endOfInput (List.isEmpty_iff.mp ends)⟩
          · next goes => exact .endOfInputFails fun ends => goes (List.isEmpty_iff.mpr ends)
      | rule name => exact rule_shows ih name mode cursor furthest
      | sequence first second => exact sequence_shows ih patient first second mode cursor furthest
      | choice first second => exact choice_shows ih first second mode cursor furthest
      | optional body => exact optional_shows ih body mode cursor furthest
      | many body => exact many_shows ih body mode cursor furthest
      | manyMore body => exact manyMore_shows ih patient body mode cursor furthest
      | absent body => exact absent_shows ih body mode cursor furthest

end FlowScript.Grammar
