import FlowScript.Proofs.Grammar.Reading

/-!
# Skipping trivia

Blanks, comments up to the end of their line, and nested block comments. A block
comment that is never closed is no comment, and neither are those inside it; the
characters `/*/` would then close one that is around them. Without these characters
a block comment ends where its opening and closing marks balance.
-/

set_option autoImplicit false

namespace FlowScript

namespace Text

/-- The text behind so many block comments, each inside the next one. -/
def commentEnd? : Nat → Text → Option Text
  | 0, text => some text
  | _ + 1, [] => none
  | depth + 1, '/' :: '*' :: rest => commentEnd? (depth + 2) rest
  | depth + 1, '*' :: '/' :: rest => commentEnd? depth rest
  | depth + 1, _ :: rest => commentEnd? (depth + 1) rest

/-- Holds when the characters `/*/` do not occur. -/
def Unambiguous (text : Text) : Prop := ¬['/', '*', '/'] <:+: text

theorem Unambiguous.tail {char : Char} {rest : Text} (unambiguous : Unambiguous (char :: rest)) :
    Unambiguous rest :=
  fun occurs => unambiguous (occurs.trans (List.suffix_cons char rest).isInfix)

theorem Unambiguous.suffix {before rest : Text} (unambiguous : Unambiguous (before ++ rest)) :
    Unambiguous rest :=
  fun occurs => unambiguous (occurs.trans (List.suffix_append before rest).isInfix)

/-- A character that neither opens nor closes a comment. -/
theorem commentEnd?_cons {char : Char} {rest : Text} (depth : Nat)
    (opens : ∀ tail, char :: rest ≠ '/' :: '*' :: tail)
    (closes : ∀ tail, char :: rest ≠ '*' :: '/' :: tail) :
    commentEnd? (depth + 1) (char :: rest) = commentEnd? (depth + 1) rest := by
  rw [commentEnd?]
  · intro tail same tailSame
    subst same tailSame
    exact opens tail rfl
  · intro tail same tailSame
    subst same tailSame
    exact closes tail rfl

theorem commentEnd?_append {depth : Nat} {text rest : Text} (more : Text)
    (ends : commentEnd? depth text = some rest) :
    commentEnd? depth (text ++ more) = some (rest ++ more) := by
  fun_induction commentEnd? depth text with
  | case1 text =>
      cases ends
      rw [commentEnd?]
  | case2 => cases ends
  | case3 depth rest ih =>
      rw [List.cons_append, List.cons_append, commentEnd?]
      exact ih ends
  | case4 depth rest ih =>
      rw [List.cons_append, List.cons_append, commentEnd?]
      exact ih ends
  | case5 depth char tail opens closes ih =>
      rw [List.cons_append, commentEnd?_cons, ih ends]
      · intro beyond same
        cases tail with
        | nil =>
            rw [commentEnd?] at ends
            cases ends
        | cons next tail =>
            cases same
            exact opens tail rfl rfl
      · intro beyond same
        cases tail with
        | nil =>
            rw [commentEnd?] at ends
            cases ends
        | cons next tail =>
            cases same
            exact closes tail rfl rfl

/-- The comments as such, without what comes behind them. -/
theorem commentEnd?_split {depth : Nat} {text rest : Text}
    (ends : commentEnd? depth text = some rest) :
    ∃ body, text = body ++ rest ∧ commentEnd? depth body = some [] := by
  fun_induction commentEnd? depth text with
  | case1 text =>
      cases ends
      exact ⟨[], rfl, by rw [commentEnd?]⟩
  | case2 => cases ends
  | case3 depth tail ih =>
      obtain ⟨body, rfl, inside⟩ := ih ends
      exact ⟨'/' :: '*' :: body, rfl, by rw [commentEnd?, inside]⟩
  | case4 depth tail ih =>
      obtain ⟨body, rfl, inside⟩ := ih ends
      exact ⟨'*' :: '/' :: body, rfl, by rw [commentEnd?, inside]⟩
  | case5 depth char tail opens closes ih =>
      obtain ⟨body, rfl, inside⟩ := ih ends
      refine ⟨char :: body, rfl, ?_⟩
      rw [commentEnd?_cons, inside]
      · rintro tail ⟨⟩
        exact opens _ rfl rfl
      · rintro tail ⟨⟩
        exact closes _ rfl rfl

/-- The inner comments end before the outer ones. -/
theorem commentEnd?_add (inner outer : Nat) (text : Text) :
    commentEnd? (inner + outer) text = (commentEnd? inner text).bind (commentEnd? outer) := by
  fun_induction commentEnd? inner text with
  | case1 text => simp
  | case2 depth => simp [Nat.succ_add, commentEnd?]
  | case3 depth rest ih =>
      rw [Nat.succ_add, commentEnd?, ← ih]
      congr 1
      omega
  | case4 depth rest ih =>
      rw [Nat.succ_add, commentEnd?, ← ih]
  | case5 depth char tail opens closes ih =>
      rw [Nat.succ_add, commentEnd?_cons, ← ih, Nat.succ_add]
      · rintro tail ⟨⟩
        exact opens tail rfl rfl
      · rintro tail ⟨⟩
        exact closes tail rfl rfl

end Text

namespace Grammar

open Expression

variable {chars rest text : Text}

/-! ## Block comments -/

/-- What a block comment consists of: comments and other characters. -/
def commentItem : Expression Rule :=
  choice (rule .blockComment) (sequence (absent (word "*/")) anyChar)

theorem reads_anyChar (char : Char) : Reads anyChar [char] rest := .oneOf rfl

theorem reads_blockComment (inside : Reads (many commentItem) chars ('*' :: '/' :: rest)) :
    Reads (rule .blockComment) ('/' :: '*' :: (chars ++ ['*', '/'])) rest := by
  have closing : Reads (word "*/") ['*', '/'] rest := .text
  have body : Reads (sequence (many commentItem) (word "*/")) (chars ++ ['*', '/']) rest :=
    .sequence inside closing
  have opening : Reads (word "/*") ['/', '*'] (chars ++ ['*', '/'] ++ rest) := .text
  exact .rule rfl (.sequence opening body)

theorem refuses_blockComment_open (inside : Reads (many commentItem) text []) :
    Refuses (rule .blockComment) ('/' :: '*' :: text) := by
  have closing : Refuses (word "*/") [] := .text (by decide)
  have body := Refuses.sequenceBreaks inside closing
  rw [List.append_nil] at body
  have opening : Reads (word "/*") ['/', '*'] text := .text
  exact .rule rfl (.sequenceBreaks opening body)

theorem refuses_blockComment (opens : ∀ tail, text ≠ '/' :: '*' :: tail) :
    Refuses (rule .blockComment) text := by
  refine .rule rfl (.sequence (.text ?_))
  rintro ⟨tail, rfl⟩
  exact opens tail rfl

theorem refuses_commentItem_end : Refuses commentItem ('*' :: '/' :: rest) := by
  have closing : Reads (word "*/") ['*', '/'] rest := .text
  exact .choice (refuses_blockComment (by rintro tail ⟨⟩)) (.sequence (.absent closing))

theorem refuses_commentItem_nil : Refuses commentItem [] := by
  have closing : Refuses (word "*/") [] := .text (by decide)
  exact .choice (refuses_blockComment nofun)
    (.sequenceBreaks (.absent closing) (.oneOf (Text.stops_nil _)))

theorem reads_commentItem {char : Char} (comment : Refuses (rule .blockComment) (char :: rest))
    (closes : ∀ tail, char :: rest ≠ '*' :: '/' :: tail) : Reads commentItem [char] rest := by
  refine .choiceElse comment (.sequence (.absent (.text ?_)) (reads_anyChar char))
  rintro ⟨tail, same⟩
  exact closes tail same.symm

/-- A comment that ends is read as far as its end. -/
theorem reads_comment_items {text rest : Text} (ends : text.commentEnd? 1 = some rest) :
    ∃ chars, text = chars ++ '*' :: '/' :: rest ∧
      Reads (many commentItem) chars ('*' :: '/' :: rest) := by
  induction length : text.length using Nat.strongRecOn generalizing text rest with
  | _ size ih =>
      by_cases opens : ∃ tail, text = '/' :: '*' :: tail
      · obtain ⟨tail, rfl⟩ := opens
        rw [Text.commentEnd?, Text.commentEnd?_add 1 1] at ends
        obtain ⟨middle, inner, outer⟩ := Option.bind_eq_some_iff.mp ends
        obtain ⟨chars, rfl, nested⟩ := ih tail.length (by simp only [← length, List.length_cons]; omega) inner rfl
        obtain ⟨others, rfl, more⟩ := ih middle.length (by simp [← length]; omega) outer rfl
        refine ⟨'/' :: '*' :: (chars ++ ['*', '/']) ++ others, by simp, ?_⟩
        exact .many (.choice (reads_blockComment nested)) more
      · cases text with
        | nil => cases ends
        | cons char tail =>
            have plain : ∀ beyond, char :: tail ≠ '/' :: '*' :: beyond :=
              fun beyond same => opens ⟨beyond, same⟩
            by_cases closes : ∃ beyond, char :: tail = '*' :: '/' :: beyond
            · obtain ⟨beyond, same⟩ := closes
              rw [same, Text.commentEnd?, Text.commentEnd?] at ends
              cases ends
              exact ⟨[], same, .manyEnds refuses_commentItem_end⟩
            · have goesOn : ∀ beyond, char :: tail ≠ '*' :: '/' :: beyond :=
                fun beyond same => closes ⟨beyond, same⟩
              rw [Text.commentEnd?_cons 0 plain goesOn] at ends
              obtain ⟨chars, rfl, more⟩ := ih tail.length (by simp [← length]) ends rfl
              refine ⟨char :: chars, rfl, ?_⟩
              exact .many (reads_commentItem (refuses_blockComment plain) goesOn) more

/-- A comment that does not end is read as far as the text goes. -/
theorem reads_open_comment_items {text : Text} (unambiguous : text.Unambiguous)
    (opened : text.commentEnd? 1 = none) : Reads (many commentItem) text [] := by
  induction length : text.length using Nat.strongRecOn generalizing text with
  | _ size ih =>
      by_cases opens : ∃ tail : Text, text = '/' :: '*' :: tail
      · obtain ⟨tail, rfl⟩ := opens
        rw [Text.commentEnd?, Text.commentEnd?_add 1 1] at opened
        cases inner : tail.commentEnd? 1 with
        | some middle =>
            rw [inner] at opened
            obtain ⟨chars, rfl, nested⟩ := reads_comment_items inner
            have more := ih middle.length (by simp [← length]; omega)
              unambiguous.tail.tail.suffix.tail.tail opened rfl
            have round : Reads commentItem _ middle := .choice (reads_blockComment nested)
            simpa using round.manyToEnd more
        | none =>
            -- Neither does the inner comment end, so its opening mark counts as two characters.
            have more := ih tail.length (by simp only [← length, List.length_cons]; omega) unambiguous.tail.tail inner
              rfl
            have plain : ∀ beyond, '*' :: tail ≠ '*' :: '/' :: beyond := by
              rintro beyond ⟨⟩
              exact unambiguous ⟨[], beyond, rfl⟩
            have star : Reads commentItem ['*'] tail :=
              reads_commentItem (refuses_blockComment (by rintro beyond ⟨⟩)) plain
            have slash : Reads commentItem ['/'] ('*' :: tail) :=
              reads_commentItem (refuses_blockComment_open more) (by rintro beyond ⟨⟩)
            exact slash.manyToEnd (star.manyToEnd more)
      · cases text with
        | nil => exact .manyEnds refuses_commentItem_nil
        | cons char tail =>
            have plain : ∀ beyond, char :: tail ≠ '/' :: '*' :: beyond :=
              fun beyond same => opens ⟨beyond, same⟩
            have goesOn : ∀ beyond, char :: tail ≠ '*' :: '/' :: beyond := by
              intro beyond same
              rw [same, Text.commentEnd?, Text.commentEnd?] at opened
              cases opened
            rw [Text.commentEnd?_cons 0 plain goesOn] at opened
            have more := ih tail.length (by simp [← length]) unambiguous.tail opened rfl
            exact (reads_commentItem (refuses_blockComment plain) goesOn).manyToEnd more

/-! ## Runs of trivia -/

def isLineChar (char : Char) : Bool := char != '\n' && char != '\r'

/-- Neither a blank nor a comment comes next. -/
structure AtToken (text : Text) : Prop where
  blank : text.Stops isBlank
  comment : Refuses Rule.comment text

/-- What is skipped before the rest of a text. -/
inductive Skipped : Text → Text → Prop where
  | nil {rest : Text} : AtToken rest → Skipped [] rest
  | blank {char : Char} {trivia rest : Text} :
      isBlank char → Skipped trivia rest → Skipped (char :: trivia) rest
  | line {body trivia rest : Text} :
      (∀ char ∈ body, isLineChar char) → (trivia ++ rest).Stops isLineChar →
      Skipped trivia rest → Skipped ('/' :: '/' :: (body ++ trivia)) rest
  | block {body trivia rest : Text} :
      body.commentEnd? 1 = some [] → Skipped trivia rest →
      Skipped ('/' :: '*' :: (body ++ trivia)) rest

namespace Skipped

theorem atToken {trivia rest : Text} (skipped : Skipped trivia rest) : AtToken rest := by
  induction skipped with
  | nil token => exact token
  | blank _ _ ih | line _ _ _ ih | block _ _ ih => exact ih

theorem reads_line {body : Text} (inside : ∀ char ∈ body, isLineChar char)
    (ends : rest.Stops isLineChar) : Reads Rule.comment ('/' :: '/' :: body) rest := by
  have opening : Reads (word "//") ['/', '/'] (body ++ rest) := .text
  exact .choice (.sequence opening (.manyOneOf inside ends))

theorem reads_block {body : Text} (ends : body.commentEnd? 1 = some []) :
    Reads Rule.comment ('/' :: '*' :: body) rest := by
  obtain ⟨chars, same, reads⟩ := reads_comment_items (Text.commentEnd?_append rest ends)
  obtain rfl : body = chars ++ ['*', '/'] := by
    have split : body ++ rest = (chars ++ ['*', '/']) ++ rest := by simpa using same
    exact List.append_cancel_right split
  refine .choiceElse (.sequence (.text ?_)) (reads_blockComment reads)
  rintro ⟨tail, same⟩
  cases same

/-- The blanks that come first, and the comments, each with the blanks behind it. -/
theorem rounds {trivia rest : Text} (skipped : Skipped trivia rest) :
    ∃ blanks comments, trivia = blanks ++ comments ∧ (∀ char ∈ blanks, isBlank char) ∧
      (comments ++ rest).Stops isBlank ∧
      Reads (many (sequence Rule.comment (many (oneOf isBlank)))) comments rest := by
  induction skipped with
  | nil token => exact ⟨[], [], rfl, nofun, token.blank, .manyEnds (.sequence token.comment)⟩
  | @blank char trivia rest blank _ ih =>
      obtain ⟨blanks, comments, rfl, inside, stops, reads⟩ := ih
      exact ⟨char :: blanks, comments, rfl, List.forall_mem_cons.mpr ⟨blank, inside⟩, stops, reads⟩
  | @line body trivia rest inLine ends _ ih =>
      obtain ⟨blanks, comments, rfl, inside, stops, reads⟩ := ih
      refine ⟨[], '/' :: '/' :: (body ++ (blanks ++ comments)), rfl, nofun, ?_, ?_⟩
      · exact Text.stops_cons.mpr rfl
      · rw [List.append_assoc] at ends
        have round : Reads (sequence Rule.comment (many (oneOf isBlank)))
            ('/' :: '/' :: body ++ blanks) (comments ++ rest) :=
          .sequence (reads_line inLine ends) (.manyOneOf inside stops)
        simpa using Reads.many round reads
  | @block body trivia rest ends _ ih =>
      obtain ⟨blanks, comments, rfl, inside, stops, reads⟩ := ih
      refine ⟨[], '/' :: '*' :: (body ++ (blanks ++ comments)), rfl, nofun, ?_, ?_⟩
      · exact Text.stops_cons.mpr rfl
      · have round : Reads (sequence Rule.comment (many (oneOf isBlank)))
            ('/' :: '*' :: body ++ blanks) (comments ++ rest) :=
          .sequence (reads_block ends) (.manyOneOf inside stops)
        simpa using Reads.many round reads

theorem reads {trivia rest : Text} (skipped : Skipped trivia rest) :
    Reads flow.trivia trivia rest := by
  obtain ⟨blanks, comments, rfl, inside, stops, reads⟩ := skipped.rounds
  exact .sequence (.manyOneOf inside stops) reads

/-- Behind what was skipped there is nothing to skip. -/
theorem again {trivia rest : Text} (skipped : Skipped trivia rest) : Skipped [] rest :=
  .nil skipped.atToken

end Skipped

theorem refuses_comment (lines : ∀ tail, text ≠ '/' :: '/' :: tail)
    (blocks : Refuses (rule .blockComment) text) : Refuses Rule.comment text := by
  refine .choice (.sequence (.text ?_)) blocks
  rintro ⟨tail, rfl⟩
  exact lines tail rfl

theorem atToken_nil : AtToken [] :=
  ⟨Text.stops_nil _, refuses_comment nofun (refuses_blockComment nofun)⟩

/-- Every text starts with what is skipped in it. -/
theorem skipped_total {text : Text} (unambiguous : text.Unambiguous) :
    ∃ trivia rest, text = trivia ++ rest ∧ Skipped trivia rest := by
  induction length : text.length using Nat.strongRecOn generalizing text with
  | _ size ih =>
      by_cases lines : ∃ tail : Text, text = '/' :: '/' :: tail
      · obtain ⟨tail, rfl⟩ := lines
        have split : tail.takeWhile isLineChar ++ tail.dropWhile isLineChar = tail :=
          List.takeWhile_append_dropWhile
        have shorter := congrArg List.length split
        rw [List.length_append] at shorter
        have later : Text.Unambiguous (tail.dropWhile isLineChar) := by
          rw [← split] at unambiguous
          exact unambiguous.tail.tail.suffix
        obtain ⟨trivia, rest, same, skipped⟩ := ih (tail.dropWhile isLineChar).length
          (by simp [← length]; omega) later rfl
        refine ⟨'/' :: '/' :: (tail.takeWhile isLineChar ++ trivia), rest, ?_, .line ?_ ?_ skipped⟩
        · simp [← same]
        · exact fun char member => List.all_eq_true.mp List.all_takeWhile char member
        · rw [← same]
          intro char member
          have fails := List.head?_dropWhile_not isLineChar tail
          rw [Option.mem_def.mp member] at fails
          exact fails
      · by_cases blocks : ∃ tail : Text, text = '/' :: '*' :: tail
        · obtain ⟨tail, rfl⟩ := blocks
          cases ends : tail.commentEnd? 1 with
          | some beyond =>
              obtain ⟨body, rfl, inside⟩ := Text.commentEnd?_split ends
              obtain ⟨trivia, rest, rfl, skipped⟩ := ih beyond.length
                (by simp [← length]; omega) unambiguous.tail.tail.suffix rfl
              exact ⟨'/' :: '*' :: (body ++ trivia), rest, by simp, .block inside skipped⟩
          | none =>
              refine ⟨[], _, rfl, .nil ⟨Text.stops_cons.mpr rfl, ?_⟩⟩
              exact refuses_comment (fun beyond same => lines ⟨beyond, same⟩)
                (refuses_blockComment_open
                  (reads_open_comment_items unambiguous.tail.tail ends))
        · have comment : Refuses Rule.comment text :=
            refuses_comment (fun tail same => lines ⟨tail, same⟩)
              (refuses_blockComment fun tail same => blocks ⟨tail, same⟩)
          cases text with
          | nil => exact ⟨[], [], rfl, .nil atToken_nil⟩
          | cons char tail =>
              cases blank : isBlank char with
              | true =>
                  obtain ⟨trivia, rest, rfl, skipped⟩ := ih tail.length (by simp [← length])
                    unambiguous.tail rfl
                  exact ⟨char :: trivia, rest, rfl, .blank blank skipped⟩
              | false => exact ⟨[], _, rfl, .nil ⟨Text.stops_cons.mpr blank, comment⟩⟩

end Grammar

end FlowScript
