import FlowScript.Proofs.Grammar.Spelling

/-!
# Rows of words in a text

A text is a row of words when it consists of tokens and trivia. Whether characters are a
token depends on one character behind them at most, and a blank there never belongs to
the token. So trivia can be put between two tokens, and rows can be put behind each other
with a line end between them.
-/

set_option autoImplicit false

namespace FlowScript.Grammar

open Expression hiding rule

/-! ## Trivia -/

/-- Blanks, comments that a line end closes, and block comments with balanced marks. -/
inductive Trivia : Text → Prop where
  | nil : Trivia []
  | blank {char : Char} {rest : Text} : isBlank char → Trivia rest → Trivia (char :: rest)
  | line {body rest : Text} {ending : Char} :
      (∀ char ∈ body, isLineChar char) → isLineChar ending = false → Trivia rest →
      Trivia ('/' :: '/' :: (body ++ ending :: rest))
  | block {body rest : Text} :
      body.commentEnd? 1 = some [] → Trivia rest → Trivia ('/' :: '*' :: (body ++ rest))

theorem isBlank_of_not_isLineChar {char : Char} (ending : isLineChar char = false) :
    isBlank char := by
  simp only [isLineChar, Bool.and_eq_false_iff, bne_eq_false_iff_eq] at ending
  rcases ending with rfl | rfl <;> decide

/-- Trivia may come before trivia. -/
theorem Trivia.skipped {run gap rest : Text} (trivia : Trivia run) (skipped : Skipped gap rest) :
    Skipped (run ++ gap) rest := by
  induction trivia with
  | nil => exact skipped
  | blank blank _ ih => exact .blank blank ih
  | @line body run ending inside ends _ ih =>
      have closed : Skipped (ending :: (run ++ gap)) rest :=
        .blank (isBlank_of_not_isLineChar ends) ih
      have whole := Skipped.line inside (Text.stops_cons.mpr ends) closed
      simpa using whole
  | @block body run ends _ ih =>
      have whole := Skipped.block ends ih
      simpa using whole

/-- What is skipped before a token is trivia. -/
theorem Skipped.trivia {gap rest : Text} (skipped : Skipped gap rest) (token : rest ≠ []) :
    Trivia gap := by
  induction skipped with
  | nil => exact .nil
  | blank blank _ ih => exact .blank blank (ih token)
  | @line body gap rest inside ends skipped ih =>
      cases gap with
      | nil =>
          -- The line would end at the token, which is no blank.
          cases rest with
          | nil => exact absurd rfl token
          | cons char rest =>
              have blank := isBlank_of_not_isLineChar (Text.stops_cons.mp ends)
              exact absurd (blank.symm.trans (Text.stops_cons.mp skipped.atToken.blank)) (by decide)
      | cons ending gap =>
          have closes := Text.stops_cons.mp ends
          cases ih token with
          | blank _ rest => exact .line inside closes rest
          | line | block => cases closes
  | block ends _ ih => exact .block ends (ih token)

/-- The characters before the first line end. -/
theorem line_unique {body other rest beyond : Text} {ending : Char}
    (inside : ∀ char ∈ body, isLineChar char) (ends : isLineChar ending = false)
    (otherInside : ∀ char ∈ other, isLineChar char) (otherEnds : beyond.Stops isLineChar)
    (same : body ++ ending :: rest = other ++ beyond) : beyond = ending :: rest := by
  induction body generalizing other with
  | nil =>
      cases other with
      | nil => exact same.symm
      | cons char other =>
          obtain ⟨rfl, -⟩ := List.cons.inj same
          exact absurd ((otherInside _ List.mem_cons_self).symm.trans ends) (by decide)
  | cons char body ih =>
      obtain ⟨own, inside⟩ := List.forall_mem_cons.mp inside
      cases other with
      | nil =>
          rw [List.nil_append] at same
          subst same
          exact absurd (own.symm.trans (Text.stops_cons.mp otherEnds)) (by decide)
      | cons next other =>
          exact ih inside (List.forall_mem_cons.mp otherInside).2 (List.cons.inj same).2

theorem Skipped.tail {char : Char} {gap rest : Text} (blank : isBlank char)
    (skipped : Skipped (char :: gap) rest) : Skipped gap rest := by
  generalize same : char :: gap = text at skipped
  cases skipped with
  | nil => cases same
  | blank _ skipped =>
      cases same
      exact skipped
  | line | block =>
      obtain ⟨rfl, -⟩ := List.cons.inj same
      cases blank

/-- Trivia at the front of what is skipped can be left out. -/
theorem Trivia.drop {run gap rest : Text} (trivia : Trivia run)
    (skipped : Skipped (run ++ gap) rest) : Skipped gap rest := by
  induction trivia with
  | nil => exact skipped
  | blank blank _ ih => exact ih (skipped.tail blank)
  | @line body run ending inside ends _ ih =>
      generalize same : '/' :: '/' :: (body ++ ending :: run) ++ gap = text at skipped
      cases skipped with
      | nil => cases same
      | blank blank =>
          cases same
          cases blank
      | @line other others _ otherInside otherEnds skipped =>
          have same : body ++ ending :: (run ++ gap ++ rest) = other ++ (others ++ rest) := by
            simpa using congrArg (· ++ rest) same
          have split := line_unique inside ends otherInside otherEnds same
          rw [← List.cons_append] at split
          rw [List.append_cancel_right split] at skipped
          exact ih (skipped.tail (isBlank_of_not_isLineChar ends))
      | block => cases same
  | @block body run ends _ ih =>
      generalize same : '/' :: '*' :: (body ++ run) ++ gap = text at skipped
      cases skipped with
      | nil => cases same
      | blank blank =>
          cases same
          cases blank
      | line => cases same
      | @block other others _ otherEnds skipped =>
          have same : body ++ (run ++ gap) = other ++ others := by simpa using same
          have left := Text.commentEnd?_append (run ++ gap) ends
          rw [same, Text.commentEnd?_append others otherEnds] at left
          rw [List.nil_append, List.nil_append, Option.some.injEq] at left
          subst left
          exact ih skipped

/-! ## The character behind a token -/

/-- The next character is the same as before, or it is a blank. -/
def Loosens (rest other : Text) : Prop :=
  ∀ char ∈ other.head?, char ∈ rest.head? ∨ isBlank char

theorem Loosens.stops {rest other : Text} {accepts : Char → Bool} (loosens : Loosens rest other)
    (stops : rest.Stops accepts) (blanks : ∀ char, isBlank char → accepts char = false) :
    other.Stops accepts := by
  intro char member
  rcases loosens char member with same | blank
  · exact stops char same
  · exact blanks char blank

theorem Loosens.append_left {rest other : Text} (loosens : Loosens rest other) (front : Text) :
    Loosens (front ++ rest) (front ++ other) := by
  cases front with
  | nil => exact loosens
  | cons char front => exact fun _ member => .inl member

theorem not_isWordChar_of_isBlank {char : Char} (blank : isBlank char) :
    isWordChar char = false := by
  simp only [isBlank, Bool.or_eq_true, beq_iff_eq] at blank
  rcases blank with ((rfl | rfl) | rfl) | rfl <;> decide

theorem not_joins_of_isBlank {char next : Char} (single : char ∈ singles) (blank : isBlank next) :
    joins char next = false := by
  have apart : ∀ char ∈ singles, [' ', '\t', '\r', '\n'].all fun next => !joins char next :=
    forall_singles (by decide)
  have beside := List.all_eq_true.mp (apart char single) next
  rw [Bool.not_eq_true'] at beside
  apply beside
  simpa [isBlank, or_assoc] using blank

/-- A token stays one when a blank comes behind it. -/
theorem Lexeme.loosen {token rest other : Text} (lexeme : Lexeme token rest)
    (loosens : Loosens rest other) : Lexeme token other := by
  have words : ∀ {accepts : Char → Bool}, (∀ char, accepts char → isWordChar char) →
      ∀ char, isBlank char → accepts char = false := by
    intro accepts inside char blank
    apply Bool.eq_false_iff.mpr
    intro accepted
    exact absurd ((inside char accepted).symm.trans (not_isWordChar_of_isBlank blank)) (by decide)
  cases lexeme with
  | word start inside stops =>
      exact .word start inside (loosens.stops stops (words fun _ => id))
  | duration nonempty inside unit stops =>
      exact .duration nonempty inside unit (loosens.stops stops (words fun _ => id))
  | fraction inside nonempty others stops =>
      exact .fraction inside nonempty others
        (loosens.stops stops (words fun _ => isWordChar_of_isDigit))
  | point nonempty inside stops =>
      exact .point nonempty inside (loosens.stops stops (words fun _ => id))
  | integer nonempty inside stops =>
      apply Lexeme.integer nonempty inside (loosens.stops stops _)
      intro char blank
      rw [not_isWordChar_of_isBlank blank, Bool.false_or, beq_eq_false_iff_ne]
      rintro rfl
      cases blank
  | single nonempty absent => exact .single nonempty absent
  | triple absent => exact .triple absent
  | symbol single stops =>
      exact .symbol single (loosens.stops stops fun _ => not_joins_of_isBlank single)
  | pair pair => exact .pair pair

/-- What is skipped before a token is skipped before another text that starts with it. -/
theorem Skipped.before {gap token rest other : Text} (skipped : Skipped gap (token ++ rest))
    (lexeme : Lexeme token other) : Skipped gap (token ++ other) := by
  have nonempty : token ≠ [] := token_nonempty (.inl lexeme)
  generalize same : token ++ rest = beyond at skipped
  induction skipped with
  | nil => exact .nil lexeme.atToken
  | blank blank _ ih => exact .blank blank (ih same)
  | @line body gap _ inside ends _ ih =>
      refine .line inside ?_ (ih same)
      subst same
      cases gap with
      | nil =>
          cases token with
          | nil => exact absurd rfl nonempty
          | cons char token => exact ends
      | cons char gap => exact ends
  | block ends _ ih => exact .block ends (ih same)

/-! ## Rows -/

/-- The text consists of the words and of trivia. -/
inductive Row : Text → List Text → Prop where
  | done {gap : Text} : Skipped gap [] → Row gap []
  | word {gap text rest : Text} {words : List Text} :
      Skipped gap (text ++ rest) → Lexeme text rest → Row rest words →
      Row (gap ++ (text ++ rest)) (text :: words)

/-- A row is what the tokens of the text are. -/
theorem Row.lexes {text : Text} {row : List Text} (rows : Row text row) (before : Text) :
    ∃ tokens, Lexes before text tokens ∧ words tokens = row := by
  induction rows generalizing before with
  | done skipped => exact ⟨[], .done skipped, rfl⟩
  | @word gap text rest _ skipped lexeme _ ih =>
      obtain ⟨tokens, lexes, rfl⟩ := ih (before ++ gap ++ text)
      exact ⟨_, .token skipped (.inl lexeme) lexes, rfl⟩

/-- Words that the grammar has a use for, with points behind names only. -/
structure Proper (words : List Text) : Prop where
  known : ∀ word ∈ words, Known word
  tied : words.IsChain Tied

theorem Proper.tail {word : Text} {words : List Text} (proper : Proper (word :: words)) :
    Proper words :=
  ⟨fun other member => proper.known other (List.mem_cons_of_mem _ member), proper.tied.tail⟩

/-- Behind digits that are cut off comes a point. -/
theorem Cut.next {digits rest before : Text} {tokens : List Token} (cut : Cut digits rest)
    (lexes : Lexes before rest tokens) : (words tokens).head? = some ['.'] := by
  obtain ⟨char, tail, rfl, start⟩ := cut.point
  have front := lexes.front (atToken_of_plain rfl)
  have point : ['.'] ∈ symbols := by decide
  rcases front.symbol_cases point ⟨char :: tail, rfl⟩ with
    ⟨beyond, more, -, rfl, -⟩ | ⟨first, second, _, _, _, member, same, -, split, -⟩
  · rfl
  · cases same
    have digits : ∀ both ∈ breaks, both.1 = '.' → isWordStart both.2 = false := by decide
    obtain ⟨rfl, -⟩ := List.cons.inj (List.cons.inj split).2
    exact absurd (start.symm.trans (digits _ member rfl)) (by decide)

/-- A row of proper words ends with the text, or a token comes next. -/
inductive Ahead (before : Text) : Text → List Token → Prop where
  | done {gap : Text} : Skipped gap [] → Ahead before gap []
  | token {gap text rest : Text} {tokens : List Token} :
      Skipped gap (text ++ rest) → Lexeme text rest → Lexes (before ++ gap ++ text) rest tokens →
      Proper (words tokens) → Ahead before (gap ++ (text ++ rest)) (⟨before ++ gap, text⟩ :: tokens)

theorem Lexes.ahead {before rest : Text} {tokens : List Token} (lexes : Lexes before rest tokens)
    (proper : Proper (words tokens)) : Ahead before rest tokens := by
  cases lexes with
  | done skipped => exact .done skipped
  | @token _ gap text rest tokens skipped lexeme more =>
      rcases lexeme with lexeme | cut
      · exact .token skipped lexeme more proper.tail
      · obtain ⟨others, same⟩ := List.head?_eq_some_iff.mp (cut.next more)
        have tied : List.IsChain Tied (text :: words tokens) := proper.tied
        rw [same, List.isChain_cons_cons] at tied
        have misses := leaf_misses (show Rule.identifier.isLeaf from rfl) (by decide) cut.stops.2
        exact absurd misses.reading (tied.1 rfl)
  | stuck => exact absurd rfl (proper.known [] List.mem_cons_self).ne_nil
  | comment => exact absurd rfl (proper.known ['/', '*'] List.mem_cons_self).ne_comment

theorem Lexes.row {before rest : Text} {tokens : List Token} (lexes : Lexes before rest tokens)
    (proper : Proper (words tokens)) : Row rest (words tokens) := by
  induction tokens generalizing before rest with
  | nil =>
      cases lexes.ahead proper with
      | done skipped => exact .done skipped
  | cons token tokens ih =>
      cases lexes.ahead proper with
      | token skipped lexeme more properMore => exact .word skipped lexeme (ih more properMore)

/-- Whatever row stands behind the first tokens of a text can be exchanged for another one. -/
theorem Lexes.exchange {before rest : Text} {leading tokens : List Token}
    (lexes : Lexes before rest (leading ++ tokens)) (proper : Proper (words (leading ++ tokens))) :
    ∃ front beyond, rest = front ++ beyond ∧ Lexes (before ++ front) beyond tokens ∧
      Proper (words tokens) ∧
      ∀ {other : Text} {row : List Text}, Loosens beyond other → Row other row →
        Row (front ++ other) (words leading ++ row) := by
  induction leading generalizing before rest with
  | nil => exact ⟨[], rest, rfl, by rwa [List.append_nil], proper, fun _ row => row⟩
  | cons token leading ih =>
      cases lexes.ahead proper with
      | @token gap text rest _ skipped lexeme more properMore =>
          obtain ⟨front, beyond, rfl, onward, properLater, exchange⟩ := ih more properMore
          refine ⟨gap ++ (text ++ front), beyond, by simp, by simpa using onward, properLater, ?_⟩
          intro other row loosens rows
          have loosened := lexeme.loosen (loosens.append_left front)
          have whole := Row.word (skipped.before loosened) loosened (exchange loosens rows)
          simpa [words] using whole

/-! ## Texts behind each other -/

theorem Skipped.join {gap other rest : Text} (skipped : Skipped gap [])
    (next : Skipped other rest) : Skipped (gap ++ '\n' :: other) rest := by
  generalize ends : ([] : Text) = nothing at skipped
  induction skipped with
  | nil => exact .blank rfl next
  | blank blank _ ih => exact .blank blank (ih ends)
  | @line body gap _ inside stops _ ih =>
      subst ends
      have closed : Text.Stops isLineChar (gap ++ '\n' :: other ++ rest) := by
        cases gap with
        | nil => exact Text.stops_cons.mpr rfl
        | cons => exact stops
      have whole := Skipped.line inside closed (ih rfl)
      simpa using whole
  | block closes _ ih =>
      have whole := Skipped.block closes (ih ends)
      simpa using whole

theorem Row.join {gap text : Text} {row : List Text} (skipped : Skipped gap [])
    (rows : Row text row) : Row (gap ++ '\n' :: text) row := by
  cases rows with
  | done next => exact .done (skipped.join next)
  | @word other token rest _ next lexeme more =>
      have whole := Row.word (skipped.join next) lexeme more
      simpa using whole

/-- The words of two texts with a line end between them are those of both. -/
theorem Lexes.append {text other : Text} {tokens others : List Token} (lexes : Lexes [] text tokens)
    (otherLexes : Lexes [] other others) (proper : Proper (words tokens))
    (otherProper : Proper (words others)) :
    Row (text ++ '\n' :: other) (words tokens ++ words others) := by
  rw [← List.append_nil tokens] at lexes proper
  obtain ⟨front, beyond, rfl, onward, -, exchange⟩ := lexes.exchange proper
  cases onward with
  | done skipped =>
      have loosens : Loosens beyond (beyond ++ '\n' :: other) := by
        intro char member
        cases beyond with
        | nil =>
            cases member
            exact .inr rfl
        | cons => exact .inl member
      rw [List.append_assoc]
      exact exchange loosens (Row.join skipped (otherLexes.row otherProper))

end FlowScript.Grammar
