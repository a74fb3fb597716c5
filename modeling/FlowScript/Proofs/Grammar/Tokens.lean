import FlowScript.Proofs.Grammar.Derivation

/-!
# Matching a text token by token

What an expression does with a text is what it does with the tokens of the text. The one
exception is a symbol of one character that a longer token starts with. No expression
gets further from there, so the whole expression does not match either way.
-/

set_option autoImplicit false

namespace FlowScript.Grammar

open Expression hiding rule

/-! ## Expressions that see tokens only -/

/-- The rules whose parts may have trivia between them. -/
def Rule.isSpaced (name : Rule) : Bool :=
  (flow.rules name).mode.isNone && name != .blockComment

/-- Holds for expressions that are made of tokens. -/
def Expression.coarse : Expression Rule → Bool
  | .empty | .endOfInput => true
  | .text symbol => symbols.contains symbol
  | .rule name => name.isLeaf || name.isSpaced
  | .sequence first second | .choice first second => first.coarse && second.coarse
  | .optional body | .many body => body.coarse
  | .absent (.text symbol) => symbols.contains symbol
  | .oneOf _ | .manyMore _ | .absent _ => false

/-- A repetition that goes on is a repetition. -/
def Expression.asMany : Expression Rule → Expression Rule
  | .manyMore body => .many body
  | other => other

theorem Expression.asMany_of_coarse {expression : Expression Rule} (coarse : expression.coarse) :
    expression.asMany = expression := by
  cases expression with
  | manyMore => cases coarse
  | _ => rfl

/-! ## Broken tokens -/

/-- The rule may read the first character of a token that starts with both. -/
def Rule.mayBreak (both : Char × Char) : Rule → Bool
  | .unaryOperator op => op.symbol.toList == [both.1]
  | .binaryOperator op => op.symbol.toList == [both.1]
  | _ => false

/-- The expression reads the word. -/
def Expression.isWord (word : Text) : Expression Rule → Bool
  | .text symbol => symbol == word
  | .rule (.binaryOperator op) => !op.isWord && op.symbol.toList == word
  | _ => false

def Expression.mayBreak (both : Char × Char) : Expression Rule → Bool
  | .text symbol => symbol == [both.1]
  | .rule name => name.mayBreak both
  | .choice first second =>
      first.mayBreak both || (!first.isWord [both.1, both.2] && second.mayBreak both)
  | .optional body => body.mayBreak both
  | _ => false

/-- Only literals start with a digit. -/
def barsLeaf (both : Char × Char) (name : Rule) : Bool := name != .literal || !both.2.isDigit

/-- What cannot come where a token starts with both characters. -/
def wholeBars (both : Char × Char) : Bars where
  text symbol := symbols.contains symbol && symbol != [both.1, both.2]
  leaf := barsLeaf both
  comes _ := false

/-- What cannot come behind the first character of such a token. -/
def brokenBars (both : Char × Char) : Bars where
  text symbol := symbol.head?.any (· != both.2)
  leaf := barsLeaf both
  comes symbol := symbol == [both.2]

/-- Nothing gets further from inside a token. -/
def Expression.absorbs (both : Char × Char) : Expression Rule → Bool
  | .sequence first second =>
      first.absorbs both && second.absorbs both && !second.mayBreak both &&
        (!first.mayBreak both ||
          (second.fate (brokenBars both) = .refuses &&
            (Expression.sequence first second).fate (wholeBars both) = .refuses))
  | .choice first second => first.absorbs both && second.absorbs both
  | .optional body => body.absorbs both
  | .many body => !body.mayBreak both && body.absorbs both
  | _ => true

def Rule.seesTokens (name : Rule) : Bool :=
  name.isLeaf || !name.isSpaced ||
    ((flow.rules name).body.coarse && !name.isContent &&
      breaks.all fun both =>
        (flow.rules name).body.absorbs both &&
          (!(flow.rules name).body.mayBreak both || name.mayBreak both))

theorem flow_seesTokens (name : Rule) : name.seesTokens :=
  Rule.forall_of_all (by decide +kernel) name

theorem spaced_rule {name : Rule} (inner : name.isLeaf = false) (spaced : name.isSpaced) :
    (flow.rules name).mode = none ∧ (flow.rules name).body.coarse ∧ name.isContent = false ∧
      ∀ both ∈ breaks, (flow.rules name).body.absorbs both ∧
        ((flow.rules name).body.mayBreak both → name.mayBreak both) := by
  have checked := flow_seesTokens name
  simp only [Rule.seesTokens, inner, spaced, Bool.not_true, Bool.false_or, Bool.and_eq_true,
    Bool.not_eq_true', List.all_eq_true, Bool.or_eq_true] at checked
  obtain ⟨⟨coarse, content⟩, parts⟩ := checked
  refine ⟨Option.isNone_iff_eq_none.mp (Bool.and_eq_true_iff.mp spaced).1, coarse, content,
    fun both member => ⟨(parts both member).1, fun breaks => ?_⟩⟩
  rcases (parts both member).2 with none | other
  · exact absurd (breaks.symm.trans none) (by decide)
  · exact other

section

variable {both : Char × Char} (member : both ∈ breaks)

include member

/-- The rules for tokens do not read a token that starts with both characters. -/
theorem misses_whole {name : Rule} {rest : Text} (leaf : name.isLeaf) (barred : barsLeaf both name) :
    Misses (.rule name) (both.1 :: both.2 :: rest) := by
  have facts : ∀ both ∈ breaks, startsOther both.1 = false ∧ isWordStart both.1 = false ∧
      both.1.isDigit = false ∧ (both.1 = '.' → both.2.isDigit) := by decide
  obtain ⟨other, word, digit, point⟩ := facts both member
  by_cases literal : name = .literal
  · subst literal
    refine misses_literal_of_stops (Text.stops_cons.mpr other) (Text.stops_cons.mpr digit) ?_
    intro tail same
    have noDigit : both.2.isDigit = false := by simpa [barsLeaf] using barred
    exact absurd ((point (List.cons.inj same).1).symm.trans noDigit) (by decide)
  · exact leaf_misses leaf literal (Text.stops_cons.mpr word)

/-- Nor do they read what is behind its first character. -/
theorem misses_broken {name : Rule} {rest : Text} (leaf : name.isLeaf)
    (barred : barsLeaf both name) : Misses (.rule name) (both.2 :: rest) := by
  have facts : ∀ both ∈ breaks, startsOther both.2 = false ∧ isWordStart both.2 = false ∧
      both.2 ≠ '.' := by decide
  obtain ⟨other, word, point⟩ := facts both member
  by_cases literal : name = .literal
  · subst literal
    have noDigit : both.2.isDigit = false := by simpa [barsLeaf] using barred
    refine misses_literal_of_stops (Text.stops_cons.mpr other) (Text.stops_cons.mpr noDigit) ?_
    intro tail same
    exact absurd (List.cons.inj same).1 point
  · exact leaf_misses leaf literal (Text.stops_cons.mpr word)

theorem wholeBars_hold (tail : Text) (more : List Text) :
    (wholeBars both).Hold ((both.1 :: both.2 :: tail) :: more) where
  text symbol barred same := by
    obtain ⟨known, differs⟩ := Bool.and_eq_true_iff.mp barred
    cases same
    have short := symbol_length (List.contains_iff_mem.mp known)
    cases tail with
    | nil => exact absurd rfl (bne_iff_ne.mp differs)
    | cons => simp at short
  leaf name leaf barred := by
    rintro word ⟨⟩
    exact (misses_whole member leaf barred).reading
  comes symbol comes := by cases comes

theorem brokenBars_guard (rest : Text) : (brokenBars both).Guard (both.2 :: rest) where
  token := by
    have plain : ∀ both ∈ breaks, isPlain both.2 := by decide
    exact atToken_of_plain (plain both member)
  text symbol barred := by
    rintro ⟨tail, same⟩
    cases symbol with
    | nil => cases barred
    | cons first symbol =>
        cases same
        exact absurd rfl (bne_iff_ne.mp barred)
  leaf name leaf barred := misses_broken member leaf barred
  comes symbol comes := by
    rw [beq_iff_eq.mp comes]
    exact ⟨rest, rfl⟩

end

/-! ## Agreement -/

def words (tokens : List Token) : List Text := tokens.map Token.text

/-- What an expression does with a text agrees with what it does with the tokens. -/
def Agrees (source : Text) (expression : Expression Rule) (tokens : List Token) :
    Option (Match Rule) → Prop
  | none => Derives expression (words tokens) none
  | some found =>
      ∃ used later before rest, tokens = used ++ later ∧
        found.tokens = used.map Token.stretch ∧ found.cursor = .after before rest ∧
        before ++ rest = source ∧ Lexes before rest later ∧
        Derives expression (words tokens) (some (sketchAll source found.nodes, words later))

/-- An expression has read the first character of the first token and nothing else. -/
inductive Broken (expression : Expression Rule) (before rest : Text) (tokens : List Token)
    (result : Option (Match Rule)) : Prop where
  | intro (both : Char × Char) (tail beyond : Text) (more : List Token) (found : Match Rule) :
      both ∈ breaks → expression.mayBreak both → tail = [] ∨ both.1 = '.' →
      rest = both.1 :: both.2 :: (tail ++ beyond) →
      tokens = ⟨before, both.1 :: both.2 :: tail⟩ :: more → result = some found →
      found.cursor = .after (before ++ [both.1]) (both.2 :: (tail ++ beyond)) →
      Broken expression before rest tokens result

theorem Broken.mono {expression other : Expression Rule} {before rest : Text} {tokens : List Token}
    {found : Match Rule} {closed : Match Rule}
    (broken : Broken expression before rest tokens (some found))
    (implies : ∀ both ∈ breaks, expression.mayBreak both → other.mayBreak both)
    (same : closed.cursor = found.cursor) : Broken other before rest tokens (some closed) := by
  obtain ⟨both, tail, beyond, more, _, member, mayBreak, short, restSame, tokensSame, ⟨⟩, cursor⟩ :=
    broken
  exact ⟨both, tail, beyond, more, closed, member, implies both member mayBreak, short, restSame,
    tokensSame, rfl, same.trans cursor⟩

theorem not_broken {expression : Expression Rule} {before rest : Text} {tokens : List Token}
    {result : Option (Match Rule)} (never : ∀ both ∈ breaks, expression.mayBreak both = false)
    (broken : Broken expression before rest tokens result) : False := by
  obtain ⟨both, _, _, _, _, member, mayBreak, _⟩ := broken
  exact absurd (mayBreak.symm.trans (never both member)) (by decide)

/-- Where a token may start, the expression agrees with the tokens or breaks the first one. -/
def Follows (expression : Expression Rule) (mode : Mode) (cursor : Cursor)
    (result : Option (Match Rule)) : Prop :=
  ∀ {before rest : Text} {tokens : List Token}, mode = .spaced → cursor = .after before rest →
    Lexes before rest tokens → (expression.asMany = expression → AtToken rest) →
    expression.asMany.coarse → (∀ both ∈ breaks, expression.asMany.absorbs both) →
    Agrees (before ++ rest) expression.asMany tokens result ∨
      Broken expression before rest tokens result

theorem Follows.at_token {expression : Expression Rule} {before rest : Text} {tokens : List Token}
    {result : Option (Match Rule)}
    (follows : Follows expression .spaced (.after before rest) result)
    (lexes : Lexes before rest tokens) (token : AtToken rest) (coarse : expression.coarse)
    (absorbs : ∀ both ∈ breaks, expression.absorbs both) :
    Agrees (before ++ rest) expression tokens result ∨
      Broken expression before rest tokens result := by
  have same := Expression.asMany_of_coarse coarse
  have agrees := follows rfl rfl lexes (fun _ => token) (same.symm ▸ coarse) (same.symm ▸ absorbs)
  rwa [same] at agrees

/-- Only a match can break a token. -/
theorem Follows.none_at_token {expression : Expression Rule} {before rest : Text}
    {tokens : List Token} (follows : Follows expression .spaced (.after before rest) none)
    (lexes : Lexes before rest tokens) (token : AtToken rest) (coarse : expression.coarse)
    (absorbs : ∀ both ∈ breaks, expression.absorbs both) :
    Derives expression (words tokens) none := by
  rcases follows.at_token lexes token coarse absorbs with agrees | broken
  · exact agrees
  · obtain ⟨_, _, _, _, _, _, _, _, _, _, ⟨⟩, _⟩ := broken

section

variable {before rest : Text} {tokens : List Token} {result : Option (Match Rule)}

theorem agrees_empty {expression : Expression Rule} (lexes : Lexes before rest tokens)
    (derives : Derives expression (words tokens) (some ([], words tokens))) :
    Agrees (before ++ rest) expression tokens (some (.empty (.after before rest))) :=
  ⟨[], tokens, before, rest, rfl, rfl, rfl, rfl, lexes, derives⟩

theorem Front.nil (front : Front before [] tokens) : tokens = [] := by
  generalize same : ([] : Text) = text at front
  cases front with
  | done => rfl
  | token lexeme =>
      exact absurd (List.append_eq_nil_iff.mp same.symm).1 (token_nonempty lexeme)
  | stuck stray => exact absurd same.symm stray.nonempty
  | comment => cases same

theorem Front.cons (front : Front before rest tokens) (nonempty : rest ≠ []) : tokens ≠ [] := by
  cases front with
  | done => exact absurd rfl nonempty
  | token | stuck | comment => exact List.cons_ne_nil _ _

theorem Front.head_words (front : Front before rest tokens) :
    ∀ word ∈ (words tokens).head?, word <+: rest := by
  intro word member
  cases tokens with
  | nil => cases member
  | cons token tokens =>
      cases member
      exact front.head_prefix token rfl

theorem text_follows {symbol : Text} (lexes : Lexes before rest tokens) (token : AtToken rest)
    (member : symbol ∈ symbols)
    (yields : flow.Yields (.text symbol) .spaced (.after before rest) result) :
    Agrees (before ++ rest) (.text symbol) tokens result ∨
      Broken (.text symbol) before rest tokens result := by
  have front := lexes.front token
  by_cases starts : symbol <+: rest
  · rcases front.symbol_cases member starts with
      ⟨beyond, more, rfl, rfl, onward⟩ |
      ⟨first, second, tail, beyond, more, both, rfl, short, rfl, rfl⟩
    · cases yields.unique (.text (Cursor.take?_after before symbol beyond))
      exact .inl ⟨[⟨before, symbol⟩], more, before ++ symbol, beyond, rfl, rfl, rfl, by simp,
        onward, .text⟩
    · cases yields.unique (.text (Cursor.take?_after before [first] (second :: (tail ++ beyond))))
      exact .inr ⟨(first, second), tail, beyond, more, _, both, beq_self_eq_true _, short, rfl, rfl,
        rfl, rfl⟩
  · cases yields.unique (.textFails (Cursor.take?_eq_none starts))
    refine .inl (.textFails fun same => starts ?_)
    exact front.head_words symbol same

theorem leaf_misses_nil {name : Rule} (leaf : name.isLeaf) : Misses (.rule name) [] := by
  by_cases literal : name = .literal
  · subst literal
    exact misses_literal_of_stops (Text.stops_nil _) (Text.stops_nil _) nofun
  · exact leaf_misses leaf literal (Text.stops_nil _)

theorem leaf_follows {name : Rule} (leaf : name.isLeaf) (lexes : Lexes before rest tokens)
    (token : AtToken rest)
    (yields : flow.Yields (.rule name) .spaced (.after before rest) result) :
    Agrees (before ++ rest) (.rule name) tokens result := by
  have none : ∀ {tokens}, Misses (.rule name) rest →
      (∀ word ∈ (words tokens).head?, name.reading word = none) →
      Agrees (before ++ rest) (.rule name) tokens result := by
    intro tokens misses readings
    cases yields.unique (misses before)
    exact .leafFails leaf readings
  cases lexes.front token with
  | done => exact none (leaf_misses_nil leaf) nofun
  | @token text beyond more lexeme onward =>
      rcases leaf_reading leaf lexeme with ⟨sketches, reading, takes⟩ | ⟨reading, misses⟩
      · obtain ⟨nodes, taken, same⟩ := takes before
        cases yields.unique taken
        refine ⟨[⟨before, text⟩], more, before ++ text, beyond, rfl, rfl, rfl, by simp, onward, ?_⟩
        dsimp only
        rw [same]
        exact .leaf leaf reading
      · refine none misses ?_
        rintro word ⟨⟩
        exact reading
  | stuck stray =>
      have misses : Misses (.rule name) rest := by
        by_cases literal : name = .literal
        · subst literal
          exact stray.literal
        · exact leaf_misses leaf literal stray.word
      refine none misses ?_
      rintro word ⟨⟩
      exact (leaf_misses_nil leaf).reading
  | comment =>
      have member : ('/', '*') ∈ breaks := by decide
      have barred : barsLeaf ('/', '*') name := by simp [barsLeaf]
      refine none (misses_whole member leaf barred) ?_
      rintro word ⟨⟩
      exact (misses_whole member leaf barred).reading

theorem absent_follows {symbol : Text} (lexes : Lexes before rest tokens) (token : AtToken rest)
    (member : symbol ∈ symbols)
    (yields : flow.Yields (.absent (.text symbol)) .spaced (.after before rest) result) :
    Agrees (before ++ rest) (.absent (.text symbol)) tokens result := by
  have front := lexes.front token
  by_cases starts : symbol <+: rest
  · obtain ⟨beyond, rfl⟩ := starts
    cases yields.unique (.absentFails (.text (Cursor.take?_after before symbol beyond)))
    rcases front.symbol_cases member (List.prefix_append _ _) with
      ⟨_, more, -, rfl, -⟩ | ⟨first, second, tail, _, more, -, rfl, -, -, rfl⟩
    · exact .absentFails (List.prefix_refl symbol)
    · exact .absentFails ⟨second :: tail, rfl⟩
  · cases yields.unique (.absent (.textFails (Cursor.take?_eq_none starts)))
    refine agrees_empty lexes (.absent fun word first within => starts ?_)
    exact within.trans (front.head_words word first)

theorem endOfInput_follows (lexes : Lexes before rest tokens) (token : AtToken rest)
    (yields : flow.Yields .endOfInput .spaced (.after before rest) result) :
    Agrees (before ++ rest) .endOfInput tokens result := by
  have front := lexes.front token
  cases rest with
  | nil =>
      cases yields.unique (.endOfInput rfl)
      obtain rfl := front.nil
      exact agrees_empty lexes .endOfInput
  | cons char rest =>
      have nonempty : (Cursor.after before (char :: rest)).rest ≠ [] := List.cons_ne_nil _ _
      cases yields.unique (.endOfInputFails nonempty)
      refine .endOfInputFails fun none => front.cons (List.cons_ne_nil _ _) ?_
      exact List.map_eq_nil_iff.mp none

/-- The sketches that a rule leaves, from those of its body. -/
theorem close_sketch {name : Rule} (plain : name.isContent = false) (source : Text)
    (start : Cursor) (body : Match Rule) :
    sketchAll source (Match.close name (flow.rules name) .spaced start body).nodes =
      name.wrap (sketchAll source body.nodes) := by
  unfold Rule.wrap Match.close
  dsimp only
  split
  · next captured =>
      rw [if_pos captured.2]
      simp only [sketchAll, Node.sketch, contentOf, plain]
      rfl
  · next hidden => rw [if_neg fun captured => hidden ⟨by decide, captured⟩]

theorem rule_follows {name : Rule} {cursor : Cursor} {body : Match Rule}
    (yields : flow.Yields (flow.rules name).body ((flow.rules name).mode.getD .spaced) cursor
      (some body))
    (follows : Follows (flow.rules name).body ((flow.rules name).mode.getD .spaced) cursor
      (some body)) :
    Follows (.rule name) .spaced cursor
      (some (.close name (flow.rules name) .spaced cursor body)) := by
  rintro before rest tokens - rfl lexes token coarse -
  cases leaf : name.isLeaf with
  | true => exact .inl (leaf_follows leaf lexes (token rfl) (.rule yields))
  | false =>
      have spaced : name.isSpaced := by simpa [Expression.coarse, Expression.asMany, leaf] using coarse
      obtain ⟨mode, bodyCoarse, plain, parts⟩ := spaced_rule leaf spaced
      rw [mode] at follows
      rcases follows.at_token lexes (token rfl) bodyCoarse fun both member => (parts both member).1
        with ⟨used, later, front, beyond, split, stretches, cursor, source, onward, derives⟩ | broken
      · refine .inl ⟨used, later, front, beyond, split, ?_, cursor, source, onward, ?_⟩
        · simpa [Match.close, mode] using stretches
        · rw [close_sketch plain]
          exact .rule leaf derives
      · exact .inr (broken.mono (fun both member => (parts both member).2) rfl)

theorem ruleFails_follows {name : Rule} {cursor : Cursor}
    (yields : flow.Yields (flow.rules name).body ((flow.rules name).mode.getD .spaced) cursor none)
    (follows : Follows (flow.rules name).body ((flow.rules name).mode.getD .spaced) cursor none) :
    Follows (.rule name) .spaced cursor none := by
  rintro before rest tokens - rfl lexes token coarse -
  cases leaf : name.isLeaf with
  | true => exact .inl (leaf_follows leaf lexes (token rfl) (.ruleFails yields))
  | false =>
      have spaced : name.isSpaced := by simpa [Expression.coarse, Expression.asMany, leaf] using coarse
      obtain ⟨mode, bodyCoarse, plain, parts⟩ := spaced_rule leaf spaced
      rw [mode] at follows
      exact .inl (.ruleFails leaf (follows.none_at_token lexes (token rfl) bodyCoarse
        fun both member => (parts both member).1))

/-- What the parts of a sequence must be like. -/
theorem sequence_parts {first second : Expression Rule}
    (coarse : (Expression.sequence first second).coarse)
    (absorbs : ∀ both ∈ breaks, (Expression.sequence first second).absorbs both) :
    (first.coarse ∧ second.coarse) ∧ (∀ both ∈ breaks, first.absorbs both) ∧
      (∀ both ∈ breaks, second.absorbs both) ∧ (∀ both ∈ breaks, second.mayBreak both = false) ∧
      ∀ both ∈ breaks, first.mayBreak both →
        second.fate (brokenBars both) = .refuses ∧
          (Expression.sequence first second).fate (wholeBars both) = .refuses := by
  simp only [Expression.absorbs, Bool.and_eq_true, Bool.not_eq_true', Bool.or_eq_true,
    decide_eq_true_eq] at absorbs
  refine ⟨Bool.and_eq_true_iff.mp coarse, fun both member => (absorbs both member).1.1.1,
    fun both member => (absorbs both member).1.1.2, fun both member => (absorbs both member).1.2,
    fun both member breaks => ?_⟩
  rcases (absorbs both member).2 with none | fates
  · exact absurd (breaks.symm.trans none) (by decide)
  · exact fates

/-- Behind a broken token nothing matches. -/
theorem Broken.stuck {expression second : Expression Rule} {left between : Match Rule}
    (broken : Broken expression before rest tokens (some left))
    (fates : ∀ both ∈ breaks, expression.mayBreak both → second.fate (brokenBars both) = .refuses)
    (gap : flow.Yields (flow.gap .spaced) .sealed left.cursor (some between)) :
    flow.Yields second .spaced between.cursor none := by
  obtain ⟨both, tail, beyond, more, _, member, mayBreak, -, -, -, ⟨⟩, cursor⟩ := broken
  have guards := brokenBars_guard member (tail ++ beyond)
  rw [cursor] at gap
  cases gap.unique (guards.token.gap _)
  exact refuses_of_fate guards.laws (fates both member mayBreak) _

/-- A sequence that starts with a broken token does not match the tokens. -/
theorem Broken.derives {expression whole : Expression Rule}
    (broken : Broken expression before rest tokens result)
    (fates : ∀ both ∈ breaks, expression.mayBreak both → whole.fate (wholeBars both) = .refuses) :
    Derives whole (words tokens) none := by
  obtain ⟨both, tail, beyond, more, _, member, mayBreak, -, -, rfl, -, -⟩ := broken
  exact refuses_of_fate (wholeBars_hold member tail (words more)).laws (fates both member mayBreak)

theorem sequence_follows {first second : Expression Rule} {cursor : Cursor}
    {left between right : Match Rule} (firstFollows : Follows first .spaced cursor (some left))
    (gap : flow.Yields (flow.gap .spaced) .sealed left.cursor (some between))
    (yields : flow.Yields second .spaced between.cursor (some right))
    (secondFollows : Follows second .spaced between.cursor (some right)) :
    Follows (.sequence first second) .spaced cursor (some (left.append right)) := by
  rintro before rest tokens - rfl lexes token coarse absorbs
  obtain ⟨⟨firstCoarse, secondCoarse⟩, firstAbsorbs, secondAbsorbs, never, fates⟩ :=
    sequence_parts coarse absorbs
  rcases firstFollows.at_token lexes (token rfl) firstCoarse firstAbsorbs with
    ⟨used, later, front, beyond, rfl, stretches, reached, source, onward, derives⟩ | broken
  · rw [reached] at gap
    obtain ⟨skipped, behind, rfl, between, next, onward⟩ := onward.skip gap
    rw [between] at secondFollows
    rcases secondFollows.at_token onward next secondCoarse secondAbsorbs with
      ⟨more, last, front', beyond', rfl, stretches', reached', source', onward', derives'⟩ | broken
    · have same : front ++ skipped ++ behind = before ++ rest := by rw [← source, List.append_assoc]
      rw [same] at source' derives'
      refine .inl ⟨used ++ more, last, front', beyond', (List.append_assoc _ _ _).symm, ?_, reached',
        source', onward', ?_⟩
      · simp only [Match.append, stretches, stretches', List.map_append]
      · simp only [Match.append, sketchAll_append]
        exact .sequence derives derives'
    · exact (not_broken never broken).elim
  · cases yields.unique (broken.stuck (fun both member breaks => (fates both member breaks).1) gap)

theorem sequenceBreaks_follows {first second : Expression Rule} {cursor : Cursor}
    {left between : Match Rule} (firstFollows : Follows first .spaced cursor (some left))
    (gap : flow.Yields (flow.gap .spaced) .sealed left.cursor (some between))
    (secondFollows : Follows second .spaced between.cursor none) :
    Follows (.sequence first second) .spaced cursor none := by
  rintro before rest tokens - rfl lexes token coarse absorbs
  obtain ⟨⟨firstCoarse, secondCoarse⟩, firstAbsorbs, secondAbsorbs, -, fates⟩ :=
    sequence_parts coarse absorbs
  rcases firstFollows.at_token lexes (token rfl) firstCoarse firstAbsorbs with
    ⟨used, later, front, beyond, rfl, -, reached, -, onward, derives⟩ | broken
  · rw [reached] at gap
    obtain ⟨skipped, behind, rfl, between, next, onward⟩ := onward.skip gap
    rw [between] at secondFollows
    exact .inl (.sequenceBreaks derives
      (secondFollows.none_at_token onward next secondCoarse secondAbsorbs))
  · exact .inl (broken.derives fun both member breaks => (fates both member breaks).2)

theorem choice_parts {first second : Expression Rule}
    (coarse : (Expression.choice first second).coarse)
    (absorbs : ∀ both ∈ breaks, (Expression.choice first second).absorbs both) :
    (first.coarse ∧ second.coarse) ∧ (∀ both ∈ breaks, first.absorbs both) ∧
      ∀ both ∈ breaks, second.absorbs both :=
  ⟨Bool.and_eq_true_iff.mp coarse,
    fun both member => (Bool.and_eq_true_iff.mp (absorbs both member)).1,
    fun both member => (Bool.and_eq_true_iff.mp (absorbs both member)).2⟩

theorem derives_of_isWord {expression : Expression Rule} {word : Text} {more : List Text}
    (reads : expression.isWord word) : ∃ found, Derives expression (word :: more) (some found) := by
  cases expression with
  | text symbol =>
      obtain rfl := beq_iff_eq.mp reads
      exact ⟨_, .text⟩
  | rule name =>
      cases name with
      | binaryOperator op =>
          obtain ⟨symbolic, same⟩ := Bool.and_eq_true_iff.mp reads
          rw [Bool.not_eq_true'] at symbolic
          have body : (flow.rules (.binaryOperator op)).body = .text word := by
            rw [← beq_iff_eq.mp same]
            change (if op.isWord then _ else _ : RuleDefinition Rule).body = _
            rw [symbolic]
            rfl
          have derives : Derives (flow.rules (.binaryOperator op)).body (word :: more)
              (some ([], more)) := by
            rw [body]
            exact .text
          exact ⟨_, .rule symbolic derives⟩
      | _ => cases reads
  | _ => cases reads

/-- A token that the first alternative reads is not broken by the second one. -/
theorem not_isWord_of_fails {expression : Expression Rule} {both : Char × Char} {tail : Text}
    {more : List Text} (member : both ∈ breaks) (coarse : expression.coarse)
    (short : tail = [] ∨ both.1 = '.')
    (fails : Derives expression ((both.1 :: both.2 :: tail) :: more) none) :
    expression.isWord [both.1, both.2] = false := by
  apply Bool.eq_false_iff.mpr
  intro reads
  rcases short with rfl | point
  · obtain ⟨found, derives⟩ := derives_of_isWord reads
    cases fails.unique derives
  · have known : [both.1, both.2] ∈ symbols := by
      cases expression with
      | text symbol =>
          rw [← beq_iff_eq.mp reads]
          exact List.contains_iff_mem.mp coarse
      | rule name =>
          cases name with
          | binaryOperator op =>
              obtain ⟨symbolic, same⟩ := Bool.and_eq_true_iff.mp reads
              rw [← beq_iff_eq.mp same]
              cases op <;> revert symbolic <;> decide
          | _ => cases reads
      | _ => cases reads
    have points : ∀ both ∈ breaks, [both.1, both.2] ∈ symbols → both.1 ≠ '.' := by decide
    exact absurd point (points both member known)

theorem choiceElse_follows {first second : Expression Rule} {cursor : Cursor}
    (firstFollows : Follows first .spaced cursor none)
    (secondFollows : Follows second .spaced cursor result) :
    Follows (.choice first second) .spaced cursor result := by
  rintro before rest tokens - rfl lexes token coarse absorbs
  obtain ⟨⟨firstCoarse, secondCoarse⟩, firstAbsorbs, secondAbsorbs⟩ := choice_parts coarse absorbs
  have fails := firstFollows.none_at_token lexes (token rfl) firstCoarse firstAbsorbs
  rcases secondFollows.at_token lexes (token rfl) secondCoarse secondAbsorbs with agrees | broken
  · cases result with
    | none => exact .inl (.choiceElse fails agrees)
    | some found =>
        obtain ⟨used, later, front, beyond, split, stretches, reached, source, onward, derives⟩ :=
          agrees
        exact .inl ⟨used, later, front, beyond, split, stretches, reached, source, onward,
          .choiceElse fails derives⟩
  · obtain ⟨both, tail, beyond, more, found, member, mayBreak, short, rest, rfl, same, reached⟩ :=
      broken
    have other := not_isWord_of_fails member firstCoarse short fails
    refine .inr ⟨both, tail, beyond, more, found, member, ?_, short, rest, rfl, same, reached⟩
    simp [Expression.mayBreak, other, mayBreak]

/-- A round of a repetition, and the rounds behind it. -/
theorem round_agrees {body : Expression Rule} {front beyond : Text} {used later : List Token}
    {found more : Match Rule} (stretches : found.tokens = used.map Token.stretch)
    (reached : found.cursor = .after front beyond) (source : front ++ beyond = before ++ rest)
    (onward : Lexes front beyond later)
    (derives : Derives body (words (used ++ later))
      (some (sketchAll (before ++ rest) found.nodes, words later)))
    (coarse : body.coarse) (absorbs : ∀ both ∈ breaks, (Expression.many body).absorbs both)
    (follows : Follows (.manyMore body) .spaced found.cursor (some more)) :
    Agrees (before ++ rest) (.many body) (used ++ later) (some (found.append more)) := by
  rw [reached] at follows
  rcases follows rfl rfl onward nofun coarse absorbs with
    ⟨others, last, front', beyond', rfl, stretches', reached', source', onward', derives'⟩ | broken
  · rw [source] at source' derives'
    refine ⟨used ++ others, last, front', beyond', (List.append_assoc _ _ _).symm, ?_, reached',
      source', onward', ?_⟩
    · simp only [Match.append, stretches, stretches', List.map_append]
    · simp only [Match.append, sketchAll_append]
      exact .many derives derives'
  · exact (not_broken (fun _ _ => rfl) broken).elim

theorem many_parts {body : Expression Rule}
    (absorbs : ∀ both ∈ breaks, (Expression.many body).absorbs both) :
    (∀ both ∈ breaks, body.mayBreak both = false) ∧ ∀ both ∈ breaks, body.absorbs both := by
  simp only [Expression.absorbs, Bool.and_eq_true, Bool.not_eq_true'] at absorbs
  exact ⟨fun both member => (absorbs both member).1, fun both member => (absorbs both member).2⟩

/-- What an expression does with a text is what it does with the tokens of the text. -/
theorem yields_follows {expression : Expression Rule} {mode : Mode} {cursor : Cursor}
    {result : Option (Match Rule)} (yields : flow.Yields expression mode cursor result) :
    Follows expression mode cursor result := by
  induction yields with
  | empty =>
      rintro before rest tokens rfl rfl lexes token coarse absorbs
      exact .inl (agrees_empty lexes .empty)
  | text taken =>
      rintro before rest tokens rfl rfl lexes token coarse absorbs
      exact text_follows lexes (token rfl) (List.contains_iff_mem.mp coarse) (.text taken)
  | textFails fails =>
      rintro before rest tokens rfl rfl lexes token coarse absorbs
      exact text_follows lexes (token rfl) (List.contains_iff_mem.mp coarse) (.textFails fails)
  | oneOf | oneOfFails =>
      rintro before rest tokens rfl rfl lexes token coarse absorbs
      cases coarse
  | endOfInput ends =>
      rintro before rest tokens rfl rfl lexes token coarse absorbs
      exact .inl (endOfInput_follows lexes (token rfl) (.endOfInput ends))
  | endOfInputFails goes =>
      rintro before rest tokens rfl rfl lexes token coarse absorbs
      exact .inl (endOfInput_follows lexes (token rfl) (.endOfInputFails goes))
  | rule body ih =>
      intro before rest tokens spaced
      subst spaced
      exact rule_follows body ih rfl
  | ruleFails body ih =>
      intro before rest tokens spaced
      subst spaced
      exact ruleFails_follows body ih rfl
  | sequence _ gap second firstIh _ secondIh =>
      intro before rest tokens spaced
      subst spaced
      exact sequence_follows firstIh gap second secondIh rfl
  | sequenceFails _ firstIh =>
      rintro before rest tokens rfl rfl lexes token coarse absorbs
      obtain ⟨⟨firstCoarse, -⟩, firstAbsorbs, -⟩ := sequence_parts coarse absorbs
      exact .inl (.sequenceFails (firstIh.none_at_token lexes (token rfl) firstCoarse firstAbsorbs))
  | sequenceBreaks _ gap _ firstIh _ secondIh =>
      intro before rest tokens spaced
      subst spaced
      exact sequenceBreaks_follows firstIh gap secondIh rfl
  | choice _ ih =>
      rintro before rest tokens rfl rfl lexes token coarse absorbs
      obtain ⟨⟨firstCoarse, -⟩, firstAbsorbs, -⟩ := choice_parts coarse absorbs
      rcases ih.at_token lexes (token rfl) firstCoarse firstAbsorbs with
        ⟨used, later, front, beyond, split, stretches, reached, source, onward, derives⟩ | broken
      · exact .inl ⟨used, later, front, beyond, split, stretches, reached, source, onward,
          .choice derives⟩
      · refine .inr (broken.mono (fun both _ breaks => ?_) rfl)
        simp [Expression.mayBreak, breaks]
  | choiceElse _ _ firstIh secondIh =>
      intro before rest tokens spaced
      subst spaced
      exact choiceElse_follows firstIh secondIh rfl
  | optional _ ih =>
      rintro before rest tokens rfl rfl lexes token coarse absorbs
      rcases ih.at_token lexes (token rfl) coarse absorbs with
        ⟨used, later, front, beyond, split, stretches, reached, source, onward, derives⟩ | broken
      · exact .inl ⟨used, later, front, beyond, split, stretches, reached, source, onward,
          .optional derives⟩
      · exact .inr (broken.mono (fun both _ breaks => breaks) rfl)
  | optionalSkips _ ih =>
      rintro before rest tokens rfl rfl lexes token coarse absorbs
      exact .inl (agrees_empty lexes
        (.optionalSkips (ih.none_at_token lexes (token rfl) coarse absorbs)))
  | many _ _ ih moreIh =>
      rintro before rest tokens rfl rfl lexes token coarse absorbs
      obtain ⟨never, bodyAbsorbs⟩ := many_parts absorbs
      rcases ih.at_token lexes (token rfl) coarse bodyAbsorbs with
        ⟨used, later, front, beyond, rfl, stretches, reached, source, onward, derives⟩ | broken
      · exact .inl (round_agrees stretches reached source onward derives coarse absorbs moreIh)
      · exact (not_broken never broken).elim
  | manyEnds _ ih =>
      rintro before rest tokens rfl rfl lexes token coarse absorbs
      exact .inl (agrees_empty lexes
        (.manyEnds (ih.none_at_token lexes (token rfl) coarse (many_parts absorbs).2)))
  | manyMore gap _ _ _ ih moreIh =>
      rintro before rest tokens rfl rfl lexes - coarse absorbs
      obtain ⟨never, bodyAbsorbs⟩ := many_parts absorbs
      obtain ⟨skipped, behind, rfl, between, next, lexes⟩ := lexes.skip gap
      rw [between] at ih
      rcases ih.at_token lexes next coarse bodyAbsorbs with
        ⟨used, later, front, beyond, rfl, stretches, reached, source, onward, derives⟩ | broken
      · rw [List.append_assoc] at source derives
        exact .inl (round_agrees stretches reached source onward derives coarse absorbs moreIh)
      · exact (not_broken never broken).elim
  | manyMoreEnds gap _ _ ih =>
      rintro before rest tokens rfl rfl lexes - coarse absorbs
      obtain ⟨skipped, behind, rfl, between, next, onward⟩ := lexes.skip gap
      rw [between] at ih
      exact .inl (agrees_empty lexes
        (.manyEnds (ih.none_at_token onward next coarse (many_parts absorbs).2)))
  | @absent body _ _ fails ih =>
      rintro before rest tokens rfl rfl lexes token coarse absorbs
      cases body with
      | text symbol =>
          exact .inl (absent_follows lexes (token rfl) (List.contains_iff_mem.mp coarse)
            (.absent fails))
      | _ => cases coarse
  | @absentFails body _ _ _ found ih =>
      rintro before rest tokens rfl rfl lexes token coarse absorbs
      cases body with
      | text symbol =>
          exact .inl (absent_follows lexes (token rfl) (List.contains_iff_mem.mp coarse)
            (.absentFails found))
      | _ => cases coarse

end

/-! ## Whole texts -/

section

variable {text : Text} {tokens : List Token} {body : Expression Rule}
  {result : Option (Match Rule)} (coarse : body.coarse)
  (absorbs : ∀ both ∈ breaks, body.absorbs both)
  (never : ∀ both ∈ breaks, body.mayBreak both = false)

include coarse absorbs never

theorem agrees_at_token {before rest : Text} (lexes : Lexes before rest tokens)
    (token : AtToken rest) (yields : flow.Yields body .spaced (.after before rest) result) :
    Agrees (before ++ rest) body tokens result := by
  have follows : Follows body .spaced (.after before rest) result := yields_follows yields
  rcases follows.at_token lexes token coarse absorbs with agrees | broken
  · exact agrees
  · exact (not_broken never broken).elim

/-- Trivia at the start of a text is skipped. -/
theorem agrees_at_start (lexes : Lexes [] text tokens)
    (yields : flow.Yields (.sequence .empty body) .spaced (.after [] text) result) :
    Agrees text body tokens result := by
  have behind : ∀ {gap : Match Rule} {result : Option (Match Rule)},
      flow.Yields flow.trivia .sealed (.after [] text) (some gap) →
      flow.Yields body .spaced gap.cursor result → Agrees text body tokens result := by
    intro gap result skips second
    obtain ⟨skipped, beyond, rfl, between, token, onward⟩ := lexes.skip skips
    rw [between] at second
    exact agrees_at_token coarse absorbs never onward token second
  cases yields with
  | sequence first gap second =>
      cases first
      exact behind gap second
  | sequenceFails first => cases first
  | sequenceBreaks first gap second =>
      cases first
      exact behind gap second

end

end FlowScript.Grammar
