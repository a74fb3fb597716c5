import FlowScript.Proofs.Grammar.Lexing

/-!
# Every text is a row of tokens

Where a token may start there is one, unless the grammar has nothing that starts so. The
cases follow the first character: letters, digits, quotes and marks.
-/

set_option autoImplicit false

namespace FlowScript.Grammar

open Expression hiding rule

/-- There is a token at the front of the text, or nothing that the grammar knows. -/
def Scanned (text : Text) : Prop :=
  (∃ token rest, text = token ++ rest ∧ (Lexeme token rest ∨ Cut token rest)) ∨ Stray text

theorem Lexeme.scanned {token rest : Text} (lexeme : Lexeme token rest) :
    Scanned (token ++ rest) :=
  .inl ⟨token, rest, rfl, .inl lexeme⟩

/-- The characters of a class at the front of a text. -/
theorem split_while (accepts : Char → Bool) (text : Text) :
    ∃ chars rest, text = chars ++ rest ∧ (∀ char ∈ chars, accepts char) ∧ rest.Stops accepts := by
  induction text with
  | nil => exact ⟨[], [], rfl, nofun, Text.stops_nil _⟩
  | cons char text ih =>
      cases accepted : accepts char with
      | false => exact ⟨[], char :: text, rfl, nofun, Text.stops_cons.mpr accepted⟩
      | true =>
          obtain ⟨chars, rest, rfl, inside, stops⟩ := ih
          exact ⟨char :: chars, rest, rfl, List.forall_mem_cons.mpr ⟨accepted, inside⟩, stops⟩

theorem not_symbol_of_not_isMark {char : Char} {rest : Text} (other : isMark char = false) :
    ∀ symbol ∈ symbols, ¬symbol <+: char :: rest := by
  intro symbol member starts
  exact absurd ((isMark_of_front member starts).symm.trans other) (by decide)

theorem not_isMark_of_isWordChar {char : Char} (inWord : isWordChar char) :
    isMark char = false := by
  apply Bool.eq_false_iff.mpr
  intro mark
  exact absurd (inWord.symm.trans (isMark_outside mark).1) (by decide)

theorem not_isWordChar {char : Char} (letter : isWordStart char = false)
    (digit : char.isDigit = false) : isWordChar char = false := by
  apply Bool.eq_false_iff.mpr
  intro inWord
  rcases (isWordChar_iff char).mp inWord with start | number
  · exact absurd (start.symm.trans letter) (by decide)
  · exact absurd (number.symm.trans digit) (by decide)

/-! ## Words -/

theorem scanned_word {char : Char} {rest : Text} (start : isWordStart char) :
    Scanned (char :: rest) := by
  obtain ⟨chars, beyond, rfl, inside, stops⟩ := split_while isWordChar rest
  exact (Lexeme.word start inside stops).scanned

/-! ## Numbers -/

section

variable {digits rest : Text} (nonempty : digits ≠ []) (inside : ∀ char ∈ digits, char.isDigit)

include nonempty inside

/-- Digits before letters that are no unit. -/
theorem stray_digits {letters : Text} (spelled : isSpelled letters) (stops : rest.Stops isWordChar)
    (noUnit : ∀ unit ∈ unitWords, letters ≠ unit.toList) :
    Stray (digits ++ (letters ++ rest)) := by
  have first : Text.Stops Char.isDigit (letters ++ rest) :=
    stops_spelled spelled fun char => not_isDigit_of_isWordStart
  have units : ∀ unit ∈ unitWords, ∀ char ∈ unit.toList, isWordChar char := fun unit member =>
    isWordChar_of_isSpelled (List.all_eq_true.mp unitWords_spelled unit member)
  have unit : Refuses (Rule.wholeWordOf unitWords) (letters ++ rest) :=
    refuses_wholeWordOf (isWordChar_of_isSpelled spelled) stops units noUnit
  obtain ⟨letter, others, rfl⟩ : ∃ letter others, letters = letter :: others := by
    cases letters with
    | nil => cases spelled
    | cons letter others => exact ⟨letter, others, rfl⟩
  have start := (isSpelled_cons.mp spelled).1
  have real : Refuses (flow.rules .real).body (digits ++ (letter :: others ++ rest)) := by
    refine refuses_real inside first ?_
    rintro tail ⟨⟩
    exact absurd start (by decide)
  have integer : Refuses (flow.rules .integer).body (digits ++ (letter :: others ++ rest)) :=
    .sequenceBreaks (reads_digits nonempty inside first)
      (refuses_wordEnd (isWordChar_of_isWordStart start))
  obtain ⟨triple, single, boolean⟩ := misses_others (stops_digits nonempty inside)
  refine ⟨(stops_wordStart_digits nonempty inside).1, ?_, (stops_wordStart_digits nonempty inside).2,
    misses_literal triple single boolean (misses_duration nonempty inside first unit)
      (Refuses.misses rfl real) (Refuses.misses rfl integer)⟩
  cases digits with
  | nil => exact absurd rfl nonempty
  | cons digit digits =>
      exact not_symbol_of_not_isMark (not_isMark_of_isWordChar
        (isWordChar_of_isDigit (inside digit List.mem_cons_self)))

theorem scanned_point : Scanned (digits ++ '.' :: rest) := by
  obtain ⟨fraction, beyond, rfl, others, stops⟩ := split_while Char.isDigit rest
  have asReal : fraction = [] ∨ fraction ≠ [] := Decidable.em _
  rcases asReal with rfl | some
  · cases beyond with
    | nil =>
        exact .inl ⟨digits ++ ['.'], [], by simp, .inl (.point nonempty inside (Text.stops_nil _))⟩
    | cons char beyond =>
        cases start : isWordStart char with
        | true => exact .inl ⟨digits, _, rfl, .inr ⟨nonempty, inside, char, beyond, rfl, start⟩⟩
        | false =>
            have outside := not_isWordChar start (Text.stops_cons.mp stops)
            exact .inl ⟨digits ++ ['.'], char :: beyond, by simp,
              .inl (.point nonempty inside (Text.stops_cons.mpr outside))⟩
  · exact .inl ⟨digits ++ '.' :: fraction, beyond, by simp, .inl (.fraction inside some others stops)⟩

theorem scanned_digits (stops : rest.Stops Char.isDigit) : Scanned (digits ++ rest) := by
  cases rest with
  | nil => exact (Lexeme.integer nonempty inside (Text.stops_nil _)).scanned
  | cons char rest =>
      by_cases point : char = '.'
      · subst point
        exact scanned_point nonempty inside
      · cases start : isWordStart char with
        | true =>
            obtain ⟨letters, beyond, rfl, others, ends⟩ := split_while isWordChar rest
            have spelled : isSpelled (char :: letters) := isSpelled_cons.mpr ⟨start, others⟩
            by_cases unit : ∃ unit ∈ unitWords, char :: letters = unit.toList
            · obtain ⟨unit, member, same⟩ := unit
              refine .inl ⟨digits ++ (char :: letters), beyond, by simp, .inl ?_⟩
              rw [same]
              exact .duration nonempty inside member ends
            · exact .inr (stray_digits nonempty inside spelled ends
                fun other member same => unit ⟨other, member, same⟩)
        | false =>
            have outside := not_isWordChar start (Text.stops_cons.mp stops)
            refine (Lexeme.integer nonempty inside (Text.stops_cons.mpr ?_)).scanned
            rw [outside, Bool.false_or, beq_eq_false_iff_ne]
            exact point

end

/-! ## Strings -/

section

variable {rest text : Text}

/-- A string between triple marks ends where they stand for the first time. -/
theorem split_closesString (text : Text) :
    (∃ inside rest, text = inside ++ (closesString ++ rest) ∧
        ¬closesString <:+: inside ++ ['\'', '\'']) ∨ ¬closesString <:+: text := by
  induction text with
  | nil => exact .inr (by decide)
  | cons char text ih =>
      by_cases starts : closesString <+: char :: text
      · obtain ⟨rest, same⟩ := starts
        exact .inl ⟨[], rest, same.symm, by decide⟩
      · rcases ih with ⟨inside, rest, rfl, absent⟩ | absent
        · refine .inl ⟨char :: inside, rest, rfl, fun occurs => ?_⟩
          rcases List.infix_cons_iff.mp occurs with front | later
          · exact starts (front.trans ⟨'\'' :: rest, by simp [closesString]⟩)
          · exact absent later
        · refine .inr fun occurs => ?_
          rcases List.infix_cons_iff.mp occurs with front | later
          · exact starts front
          · exact absent later

/-- A quote at the front that is no string. -/
theorem stray_quote (triple : Misses (.rule .stringTriple) ('\'' :: rest))
    (single : Misses (.rule .stringSingle) ('\'' :: rest)) : Stray ('\'' :: rest) := by
  have letters : Text.Stops isWordStart ('\'' :: rest) := Text.stops_cons.mpr rfl
  have noDigit : Text.Stops Char.isDigit ('\'' :: rest) := Text.stops_cons.mpr rfl
  have real : Refuses (flow.rules .real).body ([] ++ '\'' :: rest) :=
    refuses_real nofun noDigit nofun
  exact ⟨List.cons_ne_nil _ _, not_symbol_of_not_isMark (by decide), letters,
    misses_literal triple single
      (Refuses.misses rfl (refuses_wholeWordOf_of_stops (by decide) letters))
      (misses_duration_of_stops noDigit) (Refuses.misses rfl real)
      (misses_integer_of_stops noDigit)⟩

theorem misses_stringSingle_content (refuses : Refuses (stringItem ['\'']) rest) :
    Misses (.rule .stringSingle) ('\'' :: rest) := by
  have content : Refuses (flow.rules .stringSingleContent).body rest := .sequence refuses
  exact misses_quoted_content stringSingle_quoted rfl content

theorem scanned_triple (rest : Text) : Scanned (closesString ++ rest) := by
  rcases split_closesString rest with ⟨inside, beyond, rfl, absent⟩ | absent
  · exact .inl ⟨closesString ++ (inside ++ closesString), beyond, by simp, .inl (.triple absent)⟩
  · have content : Reads (flow.rules .stringTripleContent).body rest [] :=
      reads_stringItems (refuses_stringItem_nil (by decide)) fun before after same nonempty starts => by
        rw [List.append_nil] at starts
        exact absent (starts.isInfix.trans ⟨before, [], by simp [same]⟩)
    exact .inr (stray_quote
      (misses_quoted_open stringTriple_quoted (by decide) rfl rfl content)
      (misses_stringSingle_content refuses_stringItem))

theorem scanned_quote (rest : Text) : Scanned ('\'' :: rest) := by
  by_cases marks : closesString <+: '\'' :: rest
  · obtain ⟨tail, same⟩ := marks
    rw [← same]
    exact scanned_triple tail
  · have triple : Misses (.rule .stringTriple) ('\'' :: rest) := by
      intro before
      have opening : flow.Yields (.text closesString) .joined (.after before ('\'' :: rest)) none :=
        .textFails (Cursor.take?_eq_none marks)
      exact .ruleFails (.sequenceFails opening)
    obtain ⟨inside, beyond, rfl, others, stops⟩ := split_while (· != '\'') rest
    have absent : '\'' ∉ inside := fun member => absurd (others _ member) (by decide)
    cases inside with
    | nil =>
        refine .inr (stray_quote triple (misses_stringSingle_content ?_))
        cases beyond with
        | nil => exact refuses_stringItem_nil (by decide)
        | cons char beyond =>
            have same : char = '\'' := by simpa using Text.stops_cons.mp stops
            subst same
            exact refuses_stringItem
    | cons char inside =>
        cases beyond with
        | nil =>
            have content := reads_stringSingleContent (List.cons_ne_nil _ _) absent
              (refuses_stringItem_nil (by decide))
            rw [List.append_nil] at triple ⊢
            exact .inr (stray_quote triple
              (misses_quoted_open stringSingle_quoted (by decide) rfl rfl content))
        | cons next beyond =>
            have same : next = '\'' := by simpa using Text.stops_cons.mp stops
            subst same
            exact .inl ⟨'\'' :: (char :: inside ++ ['\'']), beyond, by simp,
              .inl (.single (List.cons_ne_nil _ _) absent)⟩

end

/-! ## Symbols -/

/-- A text that starts with none of the characters that tokens start with. -/
theorem stray_of_first {char : Char} {rest : Text} (other : startsOther char = false)
    (digit : char.isDigit = false) (point : char ≠ '.')
    (symbol : ∀ symbol ∈ symbols, ¬symbol <+: char :: rest) : Stray (char :: rest) := by
  refine ⟨List.cons_ne_nil _ _, symbol, Text.stops_cons.mpr (Bool.or_eq_false_iff.mp other).2,
    misses_literal_of_stops (Text.stops_cons.mpr other) (Text.stops_cons.mpr digit) ?_⟩
  rintro tail ⟨⟩
  exact absurd rfl point

theorem scanned_exclamation (rest : Text) : Scanned ('!' :: rest) := by
  have only : ∀ symbol ∈ symbols, symbol.head? = some '!' → symbol = ['!', '='] := by decide
  by_cases equals : ['!', '='] <+: '!' :: rest
  · obtain ⟨tail, same⟩ := equals
    rw [← same]
    exact (Lexeme.pair (by decide)).scanned
  · refine .inr (stray_of_first (by decide) (by decide) (by decide) fun symbol member starts => ?_)
    rw [only symbol member (symbol_head member starts)] at starts
    exact equals starts

/-- Two characters that belong together are one token, or a comment. -/
theorem scanned_joined {char next : Char} {rest : Text} (token : AtToken (char :: next :: rest))
    (joined : joins char next) :
    Scanned (char :: next :: rest) ∨ ∃ tail, char :: next :: rest = '/' :: '*' :: tail := by
  simp only [joins, Bool.or_eq_true, Bool.and_eq_true, decide_eq_true_eq, beq_iff_eq] at joined
  rcases joined with (pair | ⟨rfl, rfl | rfl⟩) | ⟨rfl, digit⟩
  · have lexeme : Lexeme [char, next] rest := .pair pair
    exact .inl lexeme.scanned
  · obtain ⟨body, beyond, rfl, inside, stops⟩ := split_while isLineChar rest
    exact absurd token.comment (Skipped.reads_line inside stops).not_refuses
  · exact .inr ⟨rest, rfl⟩
  · obtain ⟨fraction, beyond, same, inside, stops⟩ := split_while Char.isDigit (next :: rest)
    have nonempty : fraction ≠ [] := by
      rintro rfl
      rw [List.nil_append] at same
      rw [← same] at stops
      exact absurd (digit.symm.trans (Text.stops_cons.mp stops)) (by decide)
    have lexeme : Lexeme ([] ++ '.' :: fraction) beyond := .fraction (List.forall_mem_nil _) nonempty inside stops
    rw [same]
    exact .inl lexeme.scanned

theorem scanned_single {char : Char} {rest : Text} (token : AtToken (char :: rest))
    (single : char ∈ singles) :
    Scanned (char :: rest) ∨ ∃ tail, char :: rest = '/' :: '*' :: tail := by
  cases rest with
  | nil => exact .inl (Lexeme.symbol single (Text.stops_nil _)).scanned
  | cons next rest =>
      cases joined : joins char next with
      | true => exact scanned_joined token joined
      | false => exact .inl (Lexeme.symbol single (Text.stops_cons.mpr joined)).scanned

/-- Where a token may start, one does, unless there is nothing to start one. -/
theorem scanned_total {char : Char} {rest : Text} (token : AtToken (char :: rest)) :
    Scanned (char :: rest) ∨ ∃ tail, char :: rest = '/' :: '*' :: tail := by
  by_cases single : char ∈ singles
  · exact scanned_single token single
  · left
    cases letter : isWordStart char with
    | true => exact scanned_word letter
    | false =>
        cases digit : char.isDigit with
        | true =>
            obtain ⟨digits, beyond, same, inside, stops⟩ := split_while Char.isDigit (char :: rest)
            have nonempty : digits ≠ [] := by
              rintro rfl
              rw [List.nil_append] at same
              rw [← same] at stops
              exact absurd (digit.symm.trans (Text.stops_cons.mp stops)) (by decide)
            rw [same]
            exact scanned_digits nonempty inside stops
        | false =>
            by_cases quote : char = '\''
            · subst quote
              exact scanned_quote rest
            · by_cases exclamation : char = '!'
              · subst exclamation
                exact scanned_exclamation rest
              · have other : startsOther char = false := by
                  rw [startsOther, letter, Bool.or_false, beq_eq_false_iff_ne]
                  exact quote
                have noMark : isMark char = false := by
                  rw [isMark, Bool.or_eq_false_iff, beq_eq_false_iff_ne]
                  refine ⟨Bool.eq_false_iff.mpr fun member => ?_, exclamation⟩
                  exact single (List.contains_iff_mem.mp member)
                have point : char ≠ '.' := by
                  rintro rfl
                  exact single (by decide)
                exact .inr (stray_of_first other digit point (not_symbol_of_not_isMark noMark))

/-! ## Rows of tokens -/

/-- Every text in which comments are unambiguous is a row of tokens. -/
theorem lexes_total {text : Text} (unambiguous : text.Unambiguous) (before : Text) :
    ∃ tokens, Lexes before text tokens := by
  induction length : text.length using Nat.strongRecOn generalizing text before with
  | _ size ih =>
      obtain ⟨gap, rest, rfl, skipped⟩ := skipped_total unambiguous
      cases rest with
      | nil =>
          rw [List.append_nil]
          exact ⟨[], .done skipped⟩
      | cons char rest =>
          rcases scanned_total skipped.atToken with
            (⟨token, beyond, same, lexeme⟩ | stray) | ⟨tail, same⟩
          · rw [same] at skipped unambiguous length ⊢
            have nonempty := token_nonempty lexeme
            have shorter : beyond.length < size := by
              have := List.length_pos_iff.mpr nonempty
              simp only [List.length_append] at length
              omega
            obtain ⟨tokens, more⟩ := ih beyond.length shorter unambiguous.suffix.suffix
              (before ++ gap ++ token) rfl
            exact ⟨_, .token skipped lexeme more⟩
          · exact ⟨_, .stuck skipped stray⟩
          · rw [same] at skipped ⊢
            exact ⟨_, .comment skipped⟩

end FlowScript.Grammar
