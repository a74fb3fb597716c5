import FlowScript.Proofs.Grammar.Termination

/-!
# Reading parts of tokens

Inside a token nothing is skipped, and rules leave no nodes. So it is enough to say
how much of the text an expression reads there.
-/

set_option autoImplicit false

namespace FlowScript

namespace Text

theorem foldl_utf8Size (text : Text) (start : Nat) :
    text.foldl (fun total char => total + char.utf8Size) start = start + text.byteSize := by
  unfold byteSize
  induction text generalizing start with
  | nil => rfl
  | cons char rest ih =>
      rw [List.foldl_cons, List.foldl_cons, ih, ih (0 + char.utf8Size)]
      omega

theorem byteSize_cons (char : Char) (text : Text) :
    byteSize (char :: text) = char.utf8Size + byteSize text := by
  rw [byteSize, List.foldl_cons, foldl_utf8Size, Nat.zero_add]

@[simp] theorem byteSize_nil : byteSize [] = 0 := rfl

@[simp] theorem byteSize_append (left right : Text) :
    byteSize (left ++ right) = byteSize left + byteSize right := by
  rw [byteSize, List.foldl_append, foldl_utf8Size, ← byteSize]

theorem splitAt?_append (left right : Text) :
    splitAt? (left ++ right) left.byteSize = some (left, right) := by
  induction left with
  | nil =>
      cases right <;> rfl
  | cons char left ih =>
      rw [byteSize_cons]
      have positive := char.utf8Size_pos
      obtain ⟨size, same⟩ : ∃ size, char.utf8Size + byteSize left = size + 1 :=
        ⟨char.utf8Size + byteSize left - 1, by omega⟩
      have unfolded : splitAt? (char :: (left ++ right)) (size + 1) =
          if size + 1 < char.utf8Size then none
          else (splitAt? (left ++ right) (size + 1 - char.utf8Size)).map
            fun parts => (char :: parts.1, parts.2) := by
        rw [splitAt?]
        exact Nat.succ_ne_zero size
      rw [same, List.cons_append, unfolded, if_neg (by omega), ← same, Nat.add_sub_cancel_left, ih]
      rfl

/-- The text between the offsets of its ends. -/
theorem slice?_append (before inside after : Text) :
    slice? (before ++ (inside ++ after)) before.byteSize (before ++ inside).byteSize =
      some inside := by
  rw [slice?, byteSize_append, if_pos (Nat.le_add_right _ _), splitAt?_append]
  simp only [Option.bind_eq_bind, Option.bind_some, Nat.add_sub_cancel_left, splitAt?_append]
  rfl

/-- No character of the class comes first. -/
def Stops (accepts : Char → Bool) (text : Text) : Prop :=
  ∀ char ∈ text.head?, accepts char = false

instance (accepts : Char → Bool) (text : Text) : Decidable (Stops accepts text) :=
  decidable_of_iff (text.head?.all fun char => !accepts char)
    (by cases text <;> simp [Stops])

theorem stops_nil (accepts : Char → Bool) : Stops accepts [] := nofun

theorem stops_cons {accepts : Char → Bool} {char : Char} {rest : Text} :
    Stops accepts (char :: rest) ↔ accepts char = false := by
  simp [Stops]

theorem Stops.mono {weak strong : Char → Bool} {text : Text} (stops : text.Stops strong)
    (implies : ∀ char, weak char → strong char) : text.Stops weak := by
  intro char member
  cases accepted : weak char with
  | false => rfl
  | true => exact absurd (implies char accepted) (Bool.eq_false_iff.mp (stops char member))

end Text

namespace Grammar

/-- The cursor between two parts of a text. -/
def Cursor.after (before rest : Text) : Cursor := ⟨rest, before.byteSize⟩

@[simp] theorem Cursor.after_rest (before rest : Text) : (Cursor.after before rest).rest = rest :=
  rfl

@[simp] theorem Cursor.after_offset (before rest : Text) :
    (Cursor.after before rest).offset = before.byteSize := rfl

theorem Cursor.takeOne?_after (before : Text) (char : Char) (rest : Text) (accepts : Char → Bool) :
    (Cursor.after before (char :: rest)).takeOne? accepts =
      if accepts char then some (.after (before ++ [char]) rest) else none := by
  simp [Cursor.takeOne?, Cursor.after, Text.byteSize_cons]

theorem Cursor.take?_after (before chars rest : Text) :
    (Cursor.after before (chars ++ rest)).take? chars = some (.after (before ++ chars) rest) := by
  induction chars generalizing before with
  | nil => simp [Cursor.take?, Cursor.after]
  | cons char chars ih =>
      rw [List.cons_append, Cursor.take?, Cursor.takeOne?_after, if_pos (beq_self_eq_true char),
        Option.bind_eq_bind, Option.bind_some, ih, List.append_assoc, List.singleton_append]

theorem Cursor.take?_eq_none {chars : Text} {cursor : Cursor} (differs : ¬chars <+: cursor.rest) :
    cursor.take? chars = none := by
  induction chars generalizing cursor with
  | nil => exact absurd List.nil_prefix differs
  | cons char chars ih =>
      rw [Cursor.take?, Option.bind_eq_bind]
      unfold Cursor.takeOne?
      split
      · rfl
      · next head tail equation =>
          split
          · next same =>
              refine ih fun starts => differs ?_
              rw [equation, beq_iff_eq.mp same]
              exact (List.prefix_cons_inj _).mpr starts
          · rfl

/-! ## Reading and refusing -/

/-- Inside a token, the expression matches the characters before the rest. -/
def Reads (expression : Expression Rule) (chars rest : Text) : Prop :=
  ∀ before, flow.Yields expression .sealed (.after before (chars ++ rest))
    (some (.empty (.after (before ++ chars) rest)))

/-- Inside a token, the expression does not match. -/
def Refuses (expression : Expression Rule) (text : Text) : Prop :=
  ∀ before, flow.Yields expression .sealed (.after before text) none

open Expression

variable {first second body : Expression Rule} {chars more rest : Text}

theorem Reads.unique {other otherRest : Text} (reads : Reads body chars rest)
    (otherReads : Reads body other otherRest) (same : chars ++ rest = other ++ otherRest) :
    rest = otherRest := by
  have once := reads []
  rw [same] at once
  have equal := once.unique (otherReads [])
  exact congrArg Cursor.rest (congrArg Match.cursor (Option.some.inj equal))

theorem Reads.not_refuses (reads : Reads body chars rest) : ¬Refuses body (chars ++ rest) :=
  fun refuses => nomatch (reads []).unique (refuses [])

namespace Reads

theorem text : Reads (.text chars) chars rest :=
  fun before => .text (Cursor.take?_after before chars rest)

theorem oneOf {accepts : Char → Bool} {char : Char} (accepted : accepts char) :
    Reads (.oneOf accepts) [char] rest :=
  fun before => .oneOf ((Cursor.takeOne?_after before char rest accepts).trans (if_pos accepted))

theorem sequence (left : Reads first chars (more ++ rest)) (right : Reads second more rest) :
    Reads (.sequence first second) (chars ++ more) rest := by
  intro before
  have leftYields := left before
  have rightYields := right (before ++ chars)
  rw [← List.append_assoc] at leftYields
  rw [List.append_assoc] at rightYields
  exact .sequence leftYields .empty rightYields

/-- The second part only looks. -/
theorem sequenceNil (left : Reads first chars rest) (right : Reads second [] rest) :
    Reads (.sequence first second) chars rest := by
  have parts := sequence left right
  rwa [List.append_nil] at parts

theorem choice (left : Reads first chars rest) : Reads (.choice first second) chars rest :=
  fun before => .choice (left before)

theorem choiceElse (left : Refuses first (chars ++ rest)) (right : Reads second chars rest) :
    Reads (.choice first second) chars rest :=
  fun before => .choiceElse (left before) (right before)

theorem absent (refuses : Refuses body rest) : Reads (.absent body) [] rest := by
  intro before
  rw [List.append_nil]
  exact .absent (refuses before)

theorem manyEnds (refuses : Refuses body rest) : Reads (.many body) [] rest := by
  intro before
  rw [List.append_nil]
  exact .manyEnds (refuses before)

/-- Inside a token a repetition goes on as it starts. -/
theorem manyMore {cursor : Cursor} {found : Match Rule}
    (yields : flow.Yields (.many body) .sealed cursor (some found)) :
    flow.Yields (.manyMore body) .sealed cursor (some found) := by
  cases yields with
  | many round rest => exact .manyMore .empty round rest
  | manyEnds refuses => exact .manyMoreEnds .empty refuses

theorem many (round : Reads body chars (more ++ rest)) (others : Reads (.many body) more rest) :
    Reads (.many body) (chars ++ more) rest := by
  intro before
  have roundYields := round before
  have othersYield := others (before ++ chars)
  rw [← List.append_assoc] at roundYields
  rw [List.append_assoc] at othersYield
  exact .many roundYields (manyMore othersYield)

theorem manyToEnd (round : Reads body chars more) (others : Reads (.many body) more []) :
    Reads (.many body) (chars ++ more) [] :=
  many ((List.append_nil more).symm ▸ round) others

theorem rule {name : Rule} (inside : (flow.rules name).mode.getD .sealed = .sealed)
    (reads : Reads (flow.rules name).body chars rest) : Reads (.rule name) chars rest := by
  intro before
  have closed := @Yields.rule _ _ name .sealed _ _ (inside.symm ▸ reads before)
  simpa [Match.close, Match.empty] using closed

/-- A repetition of single characters reads as many as there are. -/
theorem manyOneOf {accepts : Char → Bool} (accepted : ∀ char ∈ chars, accepts char)
    (stops : rest.Stops accepts) : Reads (.many (.oneOf accepts)) chars rest := by
  induction chars with
  | nil =>
      refine manyEnds fun before => .oneOfFails ?_
      cases rest with
      | nil => rfl
      | cons char rest =>
          rw [Cursor.takeOne?_after, Text.stops_cons.mp stops]
          rfl
  | cons char chars ih =>
      have here := accepted char List.mem_cons_self
      exact many (oneOf here) (ih fun other member => accepted other (List.mem_cons_of_mem _ member))

end Reads

namespace Refuses

theorem text (differs : ¬chars <+: rest) : Refuses (.text chars) rest :=
  fun _ => .textFails (Cursor.take?_eq_none differs)

theorem oneOf {accepts : Char → Bool} (stops : rest.Stops accepts) :
    Refuses (.oneOf accepts) rest := by
  refine fun before => .oneOfFails ?_
  cases rest with
  | nil => rfl
  | cons char rest =>
      rw [Cursor.takeOne?_after, Text.stops_cons.mp stops]
      rfl

theorem sequence (left : Refuses first rest) : Refuses (.sequence first second) rest :=
  fun before => .sequenceFails (left before)

theorem sequenceBreaks (left : Reads first chars rest) (right : Refuses second rest) :
    Refuses (.sequence first second) (chars ++ rest) :=
  fun before => .sequenceBreaks (left before) .empty (right (before ++ chars))

theorem choice (left : Refuses first rest) (right : Refuses second rest) :
    Refuses (.choice first second) rest :=
  fun before => .choiceElse (left before) (right before)

theorem absent (reads : Reads body chars rest) : Refuses (.absent body) (chars ++ rest) :=
  fun before => .absentFails (reads before)

theorem rule {name : Rule} (inside : (flow.rules name).mode.getD .sealed = .sealed)
    (refuses : Refuses (flow.rules name).body rest) : Refuses (.rule name) rest :=
  fun before => .ruleFails (inside.symm ▸ refuses before)

end Refuses

/-! ## Whole words -/

theorem reads_wordEnd (stops : rest.Stops isWordChar) : Reads Rule.wordEnd [] rest :=
  .absent (.oneOf stops)

theorem refuses_wordEnd {char : Char} (continues : isWordChar char) :
    Refuses Rule.wordEnd (char :: rest) :=
  .absent (.oneOf continues)

/-- A word that a text starts with, and another one that it starts with in full. -/
theorem word_prefix {word other : Text} (stops : rest.Stops isWordChar) (wordOnly : ∀ char ∈ other, isWordChar char)
    (starts : other <+: word ++ rest) : other <+: word := by
  obtain ⟨tail, same⟩ := starts
  rcases List.append_eq_append_iff.mp same with ⟨beyond, split, -⟩ | ⟨beyond, rfl, further⟩
  · exact ⟨beyond, split.symm⟩
  · cases beyond with
    | nil => simp
    | cons char beyond =>
        subst further
        have stopped := Text.stops_cons.mp stops
        have continues := wordOnly char (by simp)
        exact absurd (continues.symm.trans stopped) (by decide)

/-- Behind a text that a word starts with in part, no word ends. -/
theorem refuses_shorter {word other : Text} (whole : ∀ char ∈ word, isWordChar char)
    (stops : rest.Stops isWordChar) (wordOnly : ∀ char ∈ other, isWordChar char)
    (starts : other <+: word ++ rest) (differs : word ≠ other) :
    ∃ beyond, word ++ rest = other ++ beyond ∧ Refuses Rule.wordEnd beyond := by
  obtain ⟨tail, rfl⟩ := word_prefix stops wordOnly starts
  cases tail with
  | nil => exact absurd (List.append_nil other) differs
  | cons char tail =>
      exact ⟨char :: tail ++ rest, by simp, refuses_wordEnd (whole char (by simp))⟩

section

variable {word : Text} (whole : ∀ char ∈ word, isWordChar char)
  (stops : rest.Stops isWordChar)

include stops

theorem reads_wholeWord {spelling : String} (same : word = spelling.toList) :
    Reads (Rule.wholeWord spelling) word rest := by
  subst same
  exact .sequenceNil .text (reads_wordEnd stops)

include whole

theorem refuses_wholeWord {spelling : String}
    (wordOnly : ∀ char ∈ spelling.toList, isWordChar char) (differs : word ≠ spelling.toList) :
    Refuses (Rule.wholeWord spelling) (word ++ rest) := by
  by_cases starts : spelling.toList <+: word ++ rest
  · obtain ⟨beyond, same, refuses⟩ := refuses_shorter whole stops wordOnly starts differs
    rw [same]
    exact .sequenceBreaks .text refuses
  · exact .sequence (.text starts)

end

/-- The first of several texts that the text starts with, if there is one. -/
theorem choiceOf_words (spellings : List String) (text : Text) :
    (∃ spelling ∈ spellings, ∃ beyond, text = spelling.toList ++ beyond ∧
        Reads (choiceOf (spellings.map word)) spelling.toList beyond) ∨
      (∀ spelling ∈ spellings, ¬spelling.toList <+: text) ∧
        Refuses (choiceOf (spellings.map word)) text := by
  induction spellings with
  | nil => exact .inr ⟨nofun, fun before => .absentFails .empty⟩
  | cons spelling others ih =>
      by_cases starts : spelling.toList <+: text
      · obtain ⟨beyond, rfl⟩ := starts
        refine .inl ⟨spelling, List.mem_cons_self, beyond, rfl, ?_⟩
        cases others with
        | nil => exact .text
        | cons other others => exact .choice .text
      · cases others with
        | nil =>
            refine .inr ⟨fun other member => ?_, .text starts⟩
            rw [List.mem_singleton.mp member]
            exact starts
        | cons other others =>
            rcases ih with ⟨found, member, beyond, rfl, reads⟩ | ⟨none, refuses⟩
            · exact .inl ⟨found, List.mem_cons_of_mem _ member, beyond, rfl,
                .choiceElse (.text starts) reads⟩
            · refine .inr ⟨fun found member => ?_, .choice (.text starts) refuses⟩
              rcases List.mem_cons.mp member with rfl | member
              · exact starts
              · exact none found member

section

variable {word : Text} {spellings : List String} (whole : ∀ char ∈ word, isWordChar char)
  (stops : rest.Stops isWordChar)
  (wordOnly : ∀ spelling ∈ spellings, ∀ char ∈ spelling.toList, isWordChar char)

include whole stops wordOnly

theorem refuses_wholeWordOf (differs : ∀ spelling ∈ spellings, word ≠ spelling.toList) :
    Refuses (Rule.wholeWordOf spellings) (word ++ rest) := by
  rcases choiceOf_words spellings (word ++ rest) with
    ⟨spelling, member, beyond, same, reads⟩ | ⟨-, refuses⟩
  · have starts : spelling.toList <+: word ++ rest := same ▸ List.prefix_append _ _
    obtain ⟨other, sameBeyond, refuses⟩ :=
      refuses_shorter whole stops (wordOnly spelling member) starts (differs spelling member)
    rw [same] at sameBeyond ⊢
    cases List.append_cancel_left sameBeyond
    exact .sequenceBreaks reads refuses
  · exact .sequence refuses

omit whole in
/-- None of the words is the beginning of another one. -/
theorem reads_wholeWordOf {spelling : String} (member : spelling ∈ spellings)
    (apart : ∀ other ∈ spellings, other.toList <+: spelling.toList → other = spelling)
    (same : word = spelling.toList) : Reads (Rule.wholeWordOf spellings) word rest := by
  rcases choiceOf_words spellings (word ++ rest) with
    ⟨found, foundMember, beyond, split, reads⟩ | ⟨none, -⟩
  · have starts : found.toList <+: word ++ rest := split ▸ List.prefix_append _ _
    have inside := word_prefix stops (wordOnly found foundMember) starts
    obtain rfl := apart found foundMember (same ▸ inside)
    rw [same] at split ⊢
    cases List.append_cancel_left split
    exact .sequenceNil reads (reads_wordEnd stops)
  · exact absurd (same ▸ List.prefix_append _ _) (none spelling member)

end

end Grammar

end FlowScript
