import FlowScript.Proofs.Syntax.Writing

/-!
# Trivia between tokens

Blanks and comments between two tokens of a script make no difference. Put there behind a
blank, they leave the words of the text as they are, and so the script apart from spans.
-/

set_option autoImplicit false

namespace FlowScript

open FlowScript.Grammar

/-- Two beginnings of a text that are equally long. -/
theorem Text.split_unique {left right leftRest rightRest : Text}
    (same : left ++ leftRest = right ++ rightRest) (size : left.byteSize = right.byteSize) :
    left = right ∧ leftRest = rightRest := by
  induction left generalizing right with
  | nil =>
      cases right with
      | nil => exact ⟨rfl, same⟩
      | cons char right =>
          have positive := char.utf8Size_pos
          rw [byteSize_nil, byteSize_cons] at size
          omega
  | cons char left ih =>
      cases right with
      | nil =>
          have positive := char.utf8Size_pos
          rw [byteSize_nil, byteSize_cons] at size
          omega
      | cons other right =>
          obtain ⟨rfl, others⟩ := List.cons.inj same
          rw [byteSize_cons, byteSize_cons] at size
          obtain ⟨rfl, rest⟩ := ih others (by omega)
          exact ⟨rfl, rest⟩

namespace Grammar

/-! ## Tokens of a parse -/

/-- The tokens of the text, in the order in which the grammar matches them. -/
def ParseTokens (source : Text) (stretches : List Stretch) : Prop :=
  ∃ found, flow.Yields (.rule .program) .spaced ⟨source, 0⟩ (some found) ∧
    found.tokens = stretches

/-- The tokens of the parse are those of the row. -/
theorem ParseTokens.of_lexes {source : Text} {stretches : List Stretch} {tokens : List Token}
    (parse : ParseTokens source stretches) (lexes : Lexes [] source tokens) :
    stretches = tokens.map Token.stretch ∧ ∃ sketches, Writes (words tokens) sketches := by
  obtain ⟨found, yields, rfl⟩ := parse
  obtain ⟨stop, children, -, stretches, writes⟩ := program_tree lexes yields
  exact ⟨stretches, _, writes⟩

theorem Lexes.parseTokens {source : Text} {tokens : List Token} (lexes : Lexes [] source tokens)
    {tree : Ast.Tree} (parsed : parseTree .program source = .ok tree) :
    ParseTokens source (tokens.map Token.stretch) := by
  obtain ⟨cursor, stretches, yields⟩ := parseTree_yields parsed
  obtain ⟨_, _, -, same, -⟩ := program_tree lexes yields
  exact ⟨_, yields, same⟩

/-! ## Places between tokens -/

/-- A place between two tokens that follow each other, outside of comments: trivia or
nothing stands between the first one and the place, or the second one comes next. -/
inductive Boundary : Text → Text → Prop where
  | intro {leading later : List Stretch} {first second : Stretch} {head gap rest tail : Text} :
      ParseTokens (head ++ gap ++ (rest ++ tail)) (leading ++ first :: second :: later) →
      first.stop = head.byteSize → second.start = (head ++ gap ++ rest).byteSize →
      Trivia gap ∨ rest = [] → Boundary (head ++ gap) (rest ++ tail)

/-- The trivia on both sides of the place. -/
theorem sides {gap rest token beyond : Text} (skipped : Skipped (gap ++ rest) (token ++ beyond))
    (lexeme : Lexeme token beyond) (place : Trivia gap ∨ rest = []) :
    Trivia gap ∧ Skipped rest (token ++ beyond) := by
  rcases place with trivia | rfl
  · exact ⟨trivia, trivia.drop skipped⟩
  · rw [List.append_nil] at skipped
    have nonempty := token_nonempty (.inl lexeme)
    exact ⟨skipped.trivia fun none => nonempty (List.append_eq_nil_iff.mp none).1, skipped.again⟩

theorem loosens_run {run : Text} (blank : run.head?.any isBlank) (gap rest beyond : Text) :
    Loosens (gap ++ rest ++ beyond) (gap ++ (run ++ rest) ++ beyond) := by
  rw [List.append_assoc, List.append_assoc, List.append_assoc]
  apply Loosens.append_left
  intro char member
  cases run with
  | nil => cases blank
  | cons first run =>
      cases member
      exact .inr blank

/-- Behind a blank, trivia between two tokens leaves the words as they are. -/
theorem Lexes.insert {head gap rest tail run : Text} {front others : List Token}
    {token next : Token}
    (lexes : Lexes [] (head ++ gap ++ (rest ++ tail)) (front ++ token :: next :: others))
    (proper : Proper (words (front ++ token :: next :: others)))
    (stops : token.stretch.stop = head.byteSize)
    (starts : next.stretch.start = (head ++ gap ++ rest).byteSize)
    (place : Trivia gap ∨ rest = []) (trivia : Trivia run) (blank : run.head?.any isBlank) :
    Row (head ++ gap ++ (run ++ (rest ++ tail))) (words (front ++ token :: next :: others)) := by
  obtain ⟨opening, beyond, split, onward, proper, exchange⟩ := lexes.exchange proper
  cases onward.ahead proper with
  | @token before text behind _ skipped lexeme more properMore =>
      cases more.ahead properMore with
      | @token between nextText last _ nextSkipped nextLexeme remaining properLast =>
          -- The tokens stand where the stretches say.
          have whole : head ++ (gap ++ (rest ++ tail)) =
              opening ++ before ++ text ++ (between ++ (nextText ++ last)) := by
            simpa using split
          obtain ⟨rfl, inner⟩ := Text.split_unique whole (by simpa [Token.stretch] using stops.symm)
          have inner : gap ++ rest ++ tail = between ++ (nextText ++ last) := by simpa using inner
          obtain ⟨rfl, rfl⟩ := Text.split_unique inner (by simpa [Token.stretch] using starts.symm)
          obtain ⟨gapTrivia, restSkipped⟩ := sides nextSkipped nextLexeme place
          have skippedRun := gapTrivia.skipped (trivia.skipped restSkipped)
          have nextRow := Row.word skippedRun nextLexeme (remaining.row properLast)
          have loosens := loosens_run blank gap rest (nextText ++ last)
          have loosened := lexeme.loosen loosens
          have row := Row.word (skipped.before loosened) loosened nextRow
          have behind := (loosens.append_left text).append_left before
          simpa [words] using exchange behind row

theorem Boundary.row {before after run : Text} (boundary : Boundary before after)
    {tokens : List Token} (lexes : Lexes [] (before ++ after) tokens) (trivia : Trivia run)
    (blank : run.head?.any isBlank) : Row (before ++ (run ++ after)) (words tokens) := by
  obtain ⟨parse, stops, starts, place⟩ := boundary
  obtain ⟨stretches, _, writes⟩ := parse.of_lexes lexes
  obtain ⟨front, pair, rfl, rfl, both⟩ := List.map_eq_append_iff.mp stretches.symm
  obtain ⟨token, others, rfl, rfl, rest⟩ := List.map_eq_cons_iff.mp both
  obtain ⟨next, others, rfl, rfl, -⟩ := List.map_eq_cons_iff.mp rest
  exact lexes.insert writes.proper stops starts place trivia blank

end Grammar

/-- Trivia that starts with a blank, put between two tokens of a script, gives the same
script apart from spans. -/
theorem trivia_invisible {before after run : Text} {script : Script}
    (parsed : parseScript (before ++ after) = .ok script)
    (unambiguous : Text.Unambiguous (before ++ after)) (boundary : Boundary before after)
    (trivia : Trivia run) (blank : run.head?.any isBlank) :
    ∃ other, parseScript (before ++ (run ++ after)) = .ok other ∧
      other.unlocated = script.unlocated := by
  obtain ⟨tokens, lexes⟩ := lexes_total unambiguous []
  obtain ⟨sketches, writes, depicts⟩ := parseScript_writes lexes parsed
  obtain ⟨others, otherLexes, same⟩ := (boundary.row lexes trivia blank).lexes []
  rw [← same] at writes
  exact writes.parseScript otherLexes depicts

/-- The tokens of an assignment. -/
theorem assignment_lexes : Lexes [] ['a', '=', '1', ';']
    [⟨[], ['a']⟩, ⟨['a'], ['=']⟩, ⟨['a', '='], ['1']⟩, ⟨['a', '=', '1'], [';']⟩] := by
  have name : Lexeme ['a'] ['=', '1', ';'] := .word rfl nofun (Text.stops_cons.mpr rfl)
  have sign : Lexeme ['='] ['1', ';'] := .symbol (by decide) (Text.stops_cons.mpr rfl)
  have number : Lexeme ['1'] [';'] := .integer (by decide) (by simp) (Text.stops_cons.mpr rfl)
  have closing : Lexeme [';'] [] := .symbol (by decide) (Text.stops_nil _)
  exact .token (.nil name.atToken) (.inl name) (.token (.nil sign.atToken) (.inl sign)
    (.token (.nil number.atToken) (.inl number) (.token (.nil closing.atToken) (.inl closing)
      (.done (.nil atToken_nil)))))

theorem commentedAssignment_invisible :
    ∃ script other, parseScript "a=1;".toList = .ok script ∧
      parseScript "a // b\n=1;".toList = .ok other ∧ other.unlocated = script.unlocated := by
  have source : "a=1;".toList = ['a'] ++ ['=', '1', ';'] := by decide
  have target : "a // b\n=1;".toList =
      ['a'] ++ ([' ', '/', '/', ' ', 'b', '\n'] ++ ['=', '1', ';']) := by decide
  have valid : (parseScript (['a'] ++ ['=', '1', ';'])).isOk := by decide +kernel
  have unambiguous : Text.Unambiguous (['a'] ++ ['=', '1', ';']) := by
    unfold Text.Unambiguous
    decide
  have comment : Trivia [' ', '/', '/', ' ', 'b', '\n'] :=
    .blank rfl (@Trivia.line [' ', 'b'] [] '\n' (by simp [isLineChar]) rfl .nil)
  rw [source, target]
  obtain ⟨script, parsed⟩ := exists_script_of_isOk valid
  obtain ⟨tree, found, -⟩ := parseScript_eq_ok.mp parsed
  have boundary : Boundary ['a'] ['=', '1', ';'] :=
    @Boundary.intro [] _ _ _ ['a'] [] [] ['=', '1', ';'] (assignment_lexes.parseTokens found)
      rfl rfl (.inl .nil)
  obtain ⟨other, otherParsed, same⟩ := trivia_invisible parsed unambiguous boundary comment rfl
  exact ⟨script, other, parsed, otherParsed, same⟩

end FlowScript
