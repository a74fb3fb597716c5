import FlowScript.Proofs.Grammar.Leaf

/-!
# Cutting texts into tokens

Every text without `/*/` is a row of tokens with trivia between them. Where the grammar
has no token for what comes next, the row ends with an empty one; a block comment that
is not closed ends it with the opening mark.
-/

set_option autoImplicit false

namespace FlowScript.Grammar

open Expression hiding rule

/-! ## Symbols -/

/-- The texts that are tokens by themselves. -/
def symbols : List Text := singles.map (fun char => [char]) ++ doubles

def digitChars : List Char := ['0', '1', '2', '3', '4', '5', '6', '7', '8', '9']

/-- Two characters at the front of a token whose first one is a symbol by itself. -/
def breaks : List (Char × Char) :=
  [('=', '='), ('<', '='), ('>', '='), ('-', '>'), ('/', '*')] ++ digitChars.map (fun digit => ('.', digit))

theorem mem_digitChars {char : Char} (digit : char.isDigit) : char ∈ digitChars := by
  have all : ∀ code < 58, 48 ≤ code → Char.ofNat code ∈ digitChars := by decide
  obtain ⟨low, high⟩ := isDigit_toNat digit
  have member := all char.toNat (Nat.lt_succ_of_le high) low
  rwa [Char.ofNat_toNat] at member

/-- The characters that symbols start with. -/
def isMark (char : Char) : Bool := singles.contains char || char == '!'

theorem isMark_outside {char : Char} (mark : isMark char) :
    isWordChar char = false ∧ isBlank char = false ∧ char ≠ '\'' := by
  have singles : ∀ char ∈ singles,
      isWordChar char = false ∧ isBlank char = false ∧ char ≠ '\'' := forall_singles (by decide)
  rcases Bool.or_eq_true_iff.mp mark with member | same
  · exact singles char (List.contains_iff_mem.mp member)
  · rw [beq_iff_eq.mp same]
    decide

/-- A symbol at the front of some characters shares the first one with them. -/
theorem symbol_head {symbol : Text} {char : Char} {rest : Text} (member : symbol ∈ symbols)
    (starts : symbol <+: char :: rest) : symbol.head? = some char := by
  obtain ⟨tail, same⟩ := starts
  cases symbol with
  | nil => exact absurd member (by decide)
  | cons first symbol =>
      injection same with same
      rw [List.head?_cons, same]

theorem isMark_of_front {symbol : Text} {char : Char} {rest : Text} (member : symbol ∈ symbols)
    (starts : symbol <+: char :: rest) : isMark char := by
  have marks : ∀ symbol ∈ symbols, symbol.head?.any isMark := by decide
  have mark := marks symbol member
  rwa [symbol_head member starts] at mark

section

variable {token rest symbol : Text}

theorem symbol_length (member : symbol ∈ symbols) : symbol.length ≤ 2 := by
  have lengths : ∀ symbol ∈ symbols, symbol.length ≤ 2 := by decide
  exact lengths symbol member

/-- The symbols at the front of a token: the token itself, or a part that breaks it. -/
theorem symbol_of_prefix (lexeme : Lexeme token rest ∨ Cut token rest) (member : symbol ∈ symbols)
    (starts : symbol <+: token ++ rest) :
    symbol = token ∨ ∃ first second tail, (first, second) ∈ breaks ∧ symbol = [first] ∧
      token = first :: second :: tail ∧ (tail = [] ∨ first = '.') := by
  have outside : ∀ {char : Char} {tail : Text}, isWordChar char → ¬symbol <+: char :: tail := by
    intro char tail inWord starts
    exact absurd (inWord.symm.trans (isMark_outside (isMark_of_front member starts)).1) (by decide)
  have digits : ∀ {digits more : Text}, digits ≠ [] → (∀ char ∈ digits, char.isDigit) →
      ¬symbol <+: digits ++ more := by
    intro digits more nonempty inside
    cases digits with
    | nil => exact absurd rfl nonempty
    | cons char digits =>
        exact outside (isWordChar_of_isDigit (inside char List.mem_cons_self))
  rcases lexeme with lexeme | cut
  · cases lexeme with
    | word start => exact absurd starts (outside (isWordChar_of_isWordStart start))
    | duration nonempty inside =>
        rw [List.append_assoc] at starts
        exact absurd starts (digits nonempty inside)
    | @fraction whole fraction _ inside nonempty others =>
        cases whole with
        | cons char whole =>
            exact absurd starts (outside (isWordChar_of_isDigit (inside char List.mem_cons_self)))
        | nil =>
            have points : ∀ symbol ∈ symbols, symbol.head? = some '.' → symbol = ['.'] := by decide
            cases fraction with
            | nil => exact absurd rfl nonempty
            | cons digit fraction =>
                have digit := mem_digitChars (others digit List.mem_cons_self)
                refine .inr ⟨'.', _, fraction, ?_,
                  points symbol member (symbol_head member starts), rfl, .inr rfl⟩
                exact List.mem_append_right _ (List.mem_map_of_mem digit)
    | point nonempty inside =>
        rw [List.append_assoc] at starts
        exact absurd starts (digits nonempty inside)
    | integer nonempty inside => exact absurd starts (digits nonempty inside)
    | single =>
        exact absurd rfl (isMark_outside (isMark_of_front member starts)).2.2
    | triple =>
        exact absurd rfl (isMark_outside (isMark_of_front member starts)).2.2
    | @symbol char _ single stops =>
        rcases List.mem_append.mp member with lone | pair
        · obtain ⟨first, -, rfl⟩ := List.mem_map.mp lone
          have same := symbol_head member starts
          rw [List.head?_cons, Option.some.injEq] at same
          exact .inl (by rw [same])
        · have lengths : ∀ chars ∈ doubles, chars.length = 2 := by decide
          have length := lengths symbol pair
          cases rest with
          | nil =>
              have := starts.length_le
              simp only [List.append_nil, List.length_singleton] at this
              omega
          | cons next rest =>
              have front : symbol <+: [char, next] :=
                List.prefix_of_prefix_length_le starts ⟨rest, rfl⟩ (Nat.le_of_eq length)
              rw [front.eq_of_length length] at pair
              have joined : joins char next := by simp [joins, pair]
              exact absurd (joined.symm.trans (Text.stops_cons.mp stops)) (by decide)
    | pair pair =>
        have parts : ∀ token ∈ doubles, token.length = 2 ∧ ∀ symbol ∈ symbols, symbol <+: token →
            symbol = token ∨ ∃ both ∈ breaks, symbol = [both.1] ∧ token = [both.1, both.2] := by
          decide
        obtain ⟨length, within⟩ := parts token pair
        have starts : symbol <+: token := List.prefix_of_prefix_length_le starts
          (List.prefix_append _ _) (length ▸ symbol_length member)
        rcases within symbol member starts with same | ⟨⟨first, second⟩, both, same, whole⟩
        · exact .inl same
        · exact .inr ⟨first, second, [], both, same, whole, .inl rfl⟩
  · exact absurd starts (digits cut.nonempty cut.digits)

end

/-! ## Where tokens start -/

/-- Neither a blank nor the first character of a comment. -/
def isPlain (char : Char) : Bool := !isBlank char && char != '/'

theorem atToken_of_plain {char : Char} {rest : Text} (plain : isPlain char) :
    AtToken (char :: rest) := by
  simp only [isPlain, Bool.and_eq_true, Bool.not_eq_true', bne_iff_ne] at plain
  refine ⟨Text.stops_cons.mpr plain.1, refuses_comment ?_ (refuses_blockComment ?_)⟩
  · rintro tail ⟨⟩
    exact plain.2 rfl
  · rintro tail ⟨⟩
    exact plain.2 rfl

theorem isPlain_of_isWordChar {char : Char} (inWord : isWordChar char) : isPlain char := by
  have differs : ∀ other, isWordChar other = false → char ≠ other :=
    fun other => ne_of_isWordChar inWord
  simp only [isPlain, isBlank, Bool.and_eq_true, Bool.not_eq_true', Bool.or_eq_false_iff,
    beq_eq_false_iff_ne, bne_iff_ne]
  exact ⟨⟨⟨⟨differs _ (by decide), differs _ (by decide)⟩, differs _ (by decide)⟩,
    differs _ (by decide)⟩, differs _ (by decide)⟩

section

variable {token rest : Text}

theorem atToken_of_digits {digits more : Text} (nonempty : digits ≠ [])
    (inside : ∀ char ∈ digits, char.isDigit) : AtToken (digits ++ more) := by
  cases digits with
  | nil => exact absurd rfl nonempty
  | cons char digits =>
      exact atToken_of_plain (isPlain_of_isWordChar
        (isWordChar_of_isDigit (inside char List.mem_cons_self)))

theorem Lexeme.atToken (lexeme : Lexeme token rest) : AtToken (token ++ rest) := by
  cases lexeme with
  | word start => exact atToken_of_plain (isPlain_of_isWordChar (isWordChar_of_isWordStart start))
  | duration nonempty inside =>
      rw [List.append_assoc]
      exact atToken_of_digits nonempty inside
  | @fraction digits fraction _ inside =>
      cases digits with
      | nil => exact atToken_of_plain rfl
      | cons char digits =>
          rw [List.append_assoc]
          exact atToken_of_digits (List.cons_ne_nil _ _) inside
  | point nonempty inside =>
      rw [List.append_assoc]
      exact atToken_of_digits nonempty inside
  | integer nonempty inside => exact atToken_of_digits nonempty inside
  | single => exact atToken_of_plain rfl
  | triple => exact atToken_of_plain rfl
  | @symbol char _ member stops =>
      have plain : ∀ char ∈ singles, char = '/' ∨ isPlain char := forall_singles (by decide)
      rcases plain char member with rfl | plain
      · refine ⟨Text.stops_cons.mpr rfl, refuses_comment ?_ (refuses_blockComment ?_)⟩
        · rintro tail ⟨⟩
          exact absurd (Text.stops_cons.mp stops) (by decide)
        · rintro tail ⟨⟩
          exact absurd (Text.stops_cons.mp stops) (by decide)
      · exact atToken_of_plain plain
  | pair member =>
      have plain : ∀ chars ∈ doubles, chars.head?.any isPlain := by decide
      have first := plain token member
      cases token with
      | nil => cases first
      | cons char token => exact atToken_of_plain first

theorem token_nonempty (lexeme : Lexeme token rest ∨ Cut token rest) : token ≠ [] := by
  rcases lexeme with lexeme | cut
  · rcases lexeme.word_or_stops with ⟨spelled, -⟩ | ⟨nonempty, -⟩
    · rintro rfl
      cases spelled
    · exact nonempty
  · exact cut.nonempty

end

/-! ## Rows of tokens -/

/-- A text that starts with nothing the grammar knows. -/
structure Stray (text : Text) : Prop where
  nonempty : text ≠ []
  symbol : ∀ symbol ∈ symbols, ¬symbol <+: text
  word : text.Stops isWordStart
  literal : Misses (.rule .literal) text

/-- A token, with all that stands before it. -/
structure Token where
  before : Text
  text : Text

def Token.stretch (token : Token) : Stretch :=
  ⟨token.before.byteSize, (token.before ++ token.text).byteSize⟩

/-- The tokens of the text behind another text. -/
inductive Lexes : Text → Text → List Token → Prop where
  | done {before gap : Text} : Skipped gap [] → Lexes before gap []
  | token {before gap text rest : Text} {tokens : List Token} :
      Skipped gap (text ++ rest) → Lexeme text rest ∨ Cut text rest →
      Lexes (before ++ gap ++ text) rest tokens →
      Lexes before (gap ++ (text ++ rest)) (⟨before ++ gap, text⟩ :: tokens)
  | stuck {before gap rest : Text} :
      Skipped gap rest → Stray rest → Lexes before (gap ++ rest) [⟨before ++ gap, []⟩]
  | comment {before gap rest : Text} :
      Skipped gap ('/' :: '*' :: rest) →
      Lexes before (gap ++ '/' :: '*' :: rest) [⟨before ++ gap, ['/', '*']⟩]

namespace Lexes

variable {before rest : Text} {tokens : List Token}

/-- The trivia before the first token. -/
theorem skipped (lexes : Lexes before rest tokens) :
    ∃ gap beyond, rest = gap ++ beyond ∧ Skipped gap beyond ∧ Lexes (before ++ gap) beyond tokens := by
  cases lexes with
  | done skipped => exact ⟨_, [], (List.append_nil _).symm, skipped, .done skipped.again⟩
  | @token _ gap text rest tokens skipped lexeme more =>
      refine ⟨gap, _, rfl, skipped, ?_⟩
      have whole := @Lexes.token (before ++ gap) [] text rest tokens skipped.again lexeme
        (by rwa [List.append_nil])
      rwa [List.append_nil, List.nil_append] at whole
  | @stuck _ gap rest skipped stray =>
      refine ⟨gap, _, rfl, skipped, ?_⟩
      have whole := @Lexes.stuck (before ++ gap) [] rest skipped.again stray
      rwa [List.append_nil, List.nil_append] at whole
  | @comment _ gap rest skipped =>
      refine ⟨gap, _, rfl, skipped, ?_⟩
      have whole := @Lexes.comment (before ++ gap) [] rest skipped.again
      rwa [List.append_nil, List.nil_append] at whole

/-- Skipping trivia leads to the first token. -/
theorem skip (lexes : Lexes before rest tokens) {found : Match Rule}
    (yields : flow.Yields flow.trivia .sealed (.after before rest) (some found)) :
    ∃ gap beyond, rest = gap ++ beyond ∧ found.cursor = .after (before ++ gap) beyond ∧
      AtToken beyond ∧ Lexes (before ++ gap) beyond tokens := by
  obtain ⟨gap, beyond, rfl, skipped, more⟩ := lexes.skipped
  cases yields.unique (skipped.reads before)
  exact ⟨gap, beyond, rfl, rfl, skipped.atToken, more⟩

end Lexes

theorem Skipped.eq_nil {gap rest : Text} (skipped : Skipped gap rest)
    (token : AtToken (gap ++ rest)) : gap = [] := by
  have nothing : Skipped [] (gap ++ rest) := .nil token
  have same := skipped.reads.unique nothing.reads rfl
  exact List.append_left_eq_self.mp same.symm

/-- What comes first where a token may start. -/
inductive Front (before : Text) : Text → List Token → Prop where
  | done : Front before [] []
  | token {text rest : Text} {tokens : List Token} :
      Lexeme text rest ∨ Cut text rest → Lexes (before ++ text) rest tokens →
      Front before (text ++ rest) (⟨before, text⟩ :: tokens)
  | stuck {rest : Text} : Stray rest → Front before rest [⟨before, []⟩]
  | comment {rest : Text} : Front before ('/' :: '*' :: rest) [⟨before, ['/', '*']⟩]

theorem Lexes.front {before rest : Text} {tokens : List Token} (lexes : Lexes before rest tokens)
    (token : AtToken rest) : Front before rest tokens := by
  cases lexes with
  | done skipped =>
      obtain rfl := skipped.eq_nil (by rwa [List.append_nil])
      exact .done
  | token skipped lexeme more =>
      obtain rfl := skipped.eq_nil token
      rw [List.append_nil] at more ⊢
      exact .token lexeme more
  | stuck skipped stray =>
      obtain rfl := skipped.eq_nil token
      rw [List.append_nil]
      exact .stuck stray
  | comment skipped =>
      obtain rfl := skipped.eq_nil token
      rw [List.append_nil]
      exact .comment

namespace Front

variable {before rest symbol : Text} {tokens : List Token}

theorem head_prefix (front : Front before rest tokens) : ∀ token ∈ tokens.head?, token.text <+: rest := by
  cases front with
  | done => nofun
  | token =>
      rintro token ⟨⟩
      exact List.prefix_append _ _
  | stuck =>
      rintro token ⟨⟩
      exact List.nil_prefix
  | comment =>
      rintro token ⟨⟩
      exact ⟨_, rfl⟩

/-- A symbol at the front is the first token, or it breaks that token. -/
theorem symbol_cases (front : Front before rest tokens) (member : symbol ∈ symbols)
    (starts : symbol <+: rest) :
    (∃ beyond more, rest = symbol ++ beyond ∧ tokens = ⟨before, symbol⟩ :: more ∧
        Lexes (before ++ symbol) beyond more) ∨
      ∃ first second tail beyond more, (first, second) ∈ breaks ∧ symbol = [first] ∧
        (tail = [] ∨ first = '.') ∧ rest = first :: second :: (tail ++ beyond) ∧
        tokens = ⟨before, first :: second :: tail⟩ :: more := by
  cases front with
  | done => exact absurd (List.prefix_nil.mp starts ▸ member) (by decide)
  | token lexeme more =>
      rcases symbol_of_prefix lexeme member starts with
        rfl | ⟨first, second, tail, both, same, rfl, short⟩
      · exact .inl ⟨_, _, rfl, rfl, more⟩
      · exact .inr ⟨first, second, tail, _, _, both, same, short, rfl, rfl⟩
  | stuck stray => exact absurd starts (stray.symbol symbol member)
  | comment =>
      have slashes : ∀ symbol ∈ symbols, symbol.head? = some '/' → symbol = ['/'] := by decide
      have same := slashes symbol member (symbol_head member starts)
      exact .inr ⟨'/', '*', [], _, [], by decide, same, .inl rfl, rfl, rfl⟩

end Front

end FlowScript.Grammar
