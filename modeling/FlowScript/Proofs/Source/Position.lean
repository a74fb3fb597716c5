import FlowScript.Proofs.Grammar.Furthest
import Mathlib.Data.List.Forall2
import Mathlib.Data.List.TakeWhile

/-!
# Lines, columns and the caret

The line and column of a place can be counted in one pass from the front of the text, in
the matcher's way or not, or looked up in a table of the offsets at which lines begin. A
diagnostic looks for the line feeds around the place instead. All of them tell of one line,
which the place cuts into a part before it and a part behind it.
-/

set_option autoImplicit false

namespace FlowScript

namespace Text

/-! ## Going through the text -/

theorem advance_cons (line column : Nat) (char : Char) (rest : Text) (size : Nat) :
    advance line column (char :: rest) (char.utf8Size + size) =
      if char = '\n' then advance (line + 1) 0 rest size
      else advance line (column + 1) rest size := by
  rw [advance, if_neg (by omega), Nat.add_sub_cancel_left]

theorem advance_zero (line column : Nat) (text : Text) :
    advance line column text 0 = (line, column) := by
  cases text with
  | nil => rfl
  | cons char rest => rw [advance, if_pos char.utf8Size_pos, if_pos rfl]

/-- Going through the text before an offset counts what `advance` counts, from one. A
carriage return before a line feed makes no difference: the column starts again anyway. -/
theorem finish_eq_advance {lineFromOne columnFromOne line column : Nat} (before after : Text)
    (lineSame : lineFromOne = line + 1) (columnSame : columnFromOne = column + 1) :
    finish lineFromOne columnFromOne before =
      ((advance line column (before ++ after) before.byteSize).1 + 1,
        (advance line column (before ++ after) before.byteSize).2 + 1) := by
  fun_induction finish lineFromOne columnFromOne before generalizing line column with
  | case1 => rw [byteSize_nil, advance_zero, lineSame, columnSame]
  | case2 lineFromOne columnFromOne rest ih =>
      rw [ih (congrArg (· + 1) lineSame) rfl, List.cons_append, List.cons_append, byteSize_cons,
        byteSize_cons, advance_cons, if_neg (by decide), advance_cons, if_pos rfl]
  | case3 lineFromOne columnFromOne rest ih =>
      rw [ih (congrArg (· + 1) lineSame) rfl, List.cons_append, byteSize_cons, advance_cons,
        if_pos rfl]
  | case4 lineFromOne columnFromOne char rest _ other ih =>
      rw [ih lineSame (congrArg (· + 1) columnSame), List.cons_append, byteSize_cons,
        advance_cons, if_neg other]

theorem matcherPosition_eq {source : Text} {offset : Nat} (boundary : source.IsBoundary offset) :
    source.matcherPosition offset =
      ((source.lineColumn offset).1 + 1, (source.lineColumn offset).2 + 1) := by
  obtain ⟨before, after, rfl, rfl⟩ := boundary
  rw [matcherPosition, splitAt?_append]
  exact finish_eq_advance before after rfl rfl

/-- On one line only the column goes on. -/
theorem advance_line {opening : Text} (unbroken : '\n' ∉ opening) (line column : Nat)
    (rest : Text) :
    advance line column (opening ++ rest) opening.byteSize = (line, column + opening.length) := by
  induction opening generalizing column with
  | nil => exact advance_zero line column rest
  | cons char opening ih =>
      obtain ⟨other, unbroken⟩ := not_or.mp (mt List.mem_cons.mpr unbroken)
      rw [List.cons_append, byteSize_cons, advance_cons, if_neg (Ne.symm other), ih unbroken,
        List.length_cons, Nat.add_assoc, Nat.add_comm 1]

/-- Behind a line feed the column starts again. -/
theorem advance_feed (line column : Nat) (lines rest : Text) (size : Nat) :
    advance line column (lines ++ '\n' :: rest) (lines.byteSize + ('\n'.utf8Size + size)) =
      advance (line + (lines ++ ['\n']).count '\n') 0 rest size := by
  induction lines generalizing line column with
  | nil => rw [List.nil_append, byteSize_nil, Nat.zero_add, advance_cons, if_pos rfl]; rfl
  | cons char lines ih =>
      rw [List.cons_append, byteSize_cons, Nat.add_assoc, advance_cons, List.cons_append,
        List.count_cons]
      by_cases feed : char = '\n'
      · rw [if_pos feed, if_pos (beq_iff_eq.mpr feed), ih, Nat.add_assoc, Nat.add_comm 1]
      · rw [if_neg feed, if_neg (mt beq_iff_eq.mp feed), ih, Nat.add_zero]

/-- There is nothing to go through past the end. -/
theorem advance_beyond {text : Text} {offset : Nat} (beyond : text.byteSize ≤ offset)
    (line column : Nat) :
    advance line column text offset = advance line column text text.byteSize := by
  induction text generalizing line column offset with
  | nil => rfl
  | cons char text ih =>
      rw [byteSize_cons] at beyond ⊢
      obtain ⟨size, rfl⟩ : ∃ size, offset = char.utf8Size + size :=
        ⟨offset - char.utf8Size, by omega⟩
      have further : byteSize text ≤ size := by omega
      rw [advance_cons, advance_cons, ih further, ih further]

theorem lineColumn_min (text : Text) (offset : Nat) :
    text.lineColumn (min offset text.byteSize) = text.lineColumn offset := by
  rcases Nat.le_total offset text.byteSize with le | beyond
  · rw [Nat.min_eq_left le]
  · rw [Nat.min_eq_right beyond, lineColumn, lineColumn, advance_beyond beyond]

/-! ## The line of a place -/

/-- The line of a place in a text, cut at the place, with the lines before it and behind
it. A place past the end is the end. -/
structure Place (text : Text) (offset : Nat) where
  earlier : Text
  opening : Text
  closing : Text
  later : Text
  whole : text = (earlier ++ opening) ++ (closing ++ later)
  here : min offset text.byteSize = (earlier ++ opening).byteSize
  earlier_ends : ∀ char ∈ earlier.getLast?, char = '\n'
  opening_unbroken : '\n' ∉ opening
  closing_unbroken : '\n' ∉ closing
  later_begins : ∀ char ∈ later.head?, char = '\n'

/-- A text up to its first line feed. -/
theorem exists_firstLine (after : Text) :
    ∃ closing later : Text, after = closing ++ later ∧ '\n' ∉ closing ∧
      ∀ char ∈ later.head?, char = '\n' := by
  refine ⟨after.takeWhile (· ≠ '\n'), after.dropWhile (· ≠ '\n'),
    List.takeWhile_append_dropWhile.symm, ?_, ?_⟩
  · intro member
    have other := List.mem_takeWhile_imp member
    exact of_decide_eq_true other rfl
  · intro char first
    have stopped := List.head?_dropWhile_not (· ≠ '\n') after
    rw [first] at stopped
    exact not_not.mp (of_decide_eq_false stopped)

/-- A text behind its last line feed. -/
theorem exists_lastLine (before : Text) :
    ∃ earlier opening : Text, before = earlier ++ opening ∧
      (∀ char ∈ earlier.getLast?, char = '\n') ∧ '\n' ∉ opening := by
  obtain ⟨closing, later, whole, unbroken, begins⟩ := exists_firstLine before.reverse
  refine ⟨later.reverse, closing.reverse, ?_, ?_, ?_⟩
  · rw [← List.reverse_append, ← whole, List.reverse_reverse]
  · rwa [List.getLast?_reverse]
  · rwa [List.mem_reverse]

theorem firstLine_append {closing later : Text} (unbroken : '\n' ∉ closing)
    (begins : ∀ char ∈ later.head?, char = '\n') : (closing ++ later).firstLine = closing := by
  have all : ∀ char ∈ closing, decide (char ≠ '\n') = true := by
    intro char member
    refine decide_eq_true fun feed => unbroken ?_
    rwa [← feed]
  have stopped : later.takeWhile (· ≠ '\n') = [] := by
    cases later with
    | nil => rfl
    | cons char rest => exact List.takeWhile_cons_of_neg (by simp [begins char rfl])
  rw [firstLine, List.takeWhile_append_of_pos all, stopped, List.append_nil]

theorem lastLine_append {earlier opening : Text}
    (ends : ∀ char ∈ earlier.getLast?, char = '\n') (unbroken : '\n' ∉ opening) :
    (earlier ++ opening).lastLine = opening := by
  have reversed : firstLine (opening.reverse ++ earlier.reverse) = opening.reverse := by
    refine firstLine_append (mt List.mem_reverse.mp unbroken) ?_
    rwa [List.head?_reverse]
  rw [← List.reverse_append] at reversed
  exact (congrArg List.reverse reversed).trans (List.reverse_reverse opening)

theorem exists_returns (line : Text) :
    ∃ returns : Text, line = line.dropTrailingReturns ++ returns ∧
      (∀ char ∈ returns, char = '\r') ∧ line.dropTrailingReturns.getLast? ≠ some '\r' := by
  refine ⟨(line.reverse.takeWhile (· = '\r')).reverse, ?_, ?_, ?_⟩
  · rw [dropTrailingReturns, ← List.reverse_append, List.takeWhile_append_dropWhile,
      List.reverse_reverse]
  · intro char member
    have carriage := List.mem_takeWhile_imp (List.mem_reverse.mp member)
    exact of_decide_eq_true carriage
  · intro last
    rw [dropTrailingReturns, List.getLast?_reverse] at last
    have stopped := List.head?_dropWhile_not (· = '\r') line.reverse
    rw [last] at stopped
    exact of_decide_eq_false stopped rfl

namespace Place

variable {text : Text} {offset : Nat}

/-- Between two characters, or past the end, there is a place. -/
theorem exists_of_boundary (placed : text.IsBoundary offset ∨ text.byteSize ≤ offset) :
    Nonempty (Place text offset) := by
  have cut : ∃ before after : Text, text = before ++ after ∧
      min offset text.byteSize = before.byteSize := by
    rcases placed with boundary | beyond
    · rw [Nat.min_eq_left boundary.le_size]
      exact boundary
    · exact ⟨text, [], (List.append_nil text).symm, Nat.min_eq_right beyond⟩
  obtain ⟨before, after, whole, here⟩ := cut
  obtain ⟨earlier, opening, rfl, ends, openingUnbroken⟩ := exists_lastLine before
  obtain ⟨closing, later, rfl, closingUnbroken, begins⟩ := exists_firstLine after
  exact ⟨⟨earlier, opening, closing, later, whole, here, ends, openingUnbroken, closingUnbroken,
    begins⟩⟩

variable (place : Place text offset)

/-- The number of lines that end before the place. -/
def linesBefore : Nat := (place.earlier ++ place.opening).count '\n'

theorem linesBefore_eq : place.linesBefore = place.earlier.count '\n' := by
  rw [linesBefore, List.count_append, List.count_eq_zero.mpr place.opening_unbroken, Nat.add_zero]

/-- Earlier lines are there only with the line feed of the last one. -/
theorem earlier_cases : place.earlier = [] ∨ ∃ lines : Text, place.earlier = lines ++ ['\n'] := by
  rcases List.eq_nil_or_concat place.earlier with none | ⟨lines, char, last⟩
  · exact .inl none
  · rw [List.concat_eq_append] at last
    have feed := place.earlier_ends char (by rw [last]; exact List.getLast?_concat)
    exact .inr ⟨lines, by rw [last, feed]⟩

theorem splitAt? :
    text.splitAt? (min offset text.byteSize) =
      some (place.earlier ++ place.opening, place.closing ++ place.later) := by
  rw [place.here]
  exact (congrArg (Text.splitAt? · _) place.whole).trans (splitAt?_append _ _)

/-- Going through the text counts the line feeds before the place and the characters of
its line. -/
theorem lineColumn : text.lineColumn offset = (place.linesBefore, place.opening.length) := by
  rw [← lineColumn_min, place.here, linesBefore_eq]
  refine (congrArg (Text.lineColumn · _) place.whole).trans ?_
  rcases place.earlier_cases with none | ⟨lines, feed⟩
  · rw [none, List.nil_append, Text.lineColumn, advance_line place.opening_unbroken, Nat.zero_add]
    rfl
  · rw [feed, byteSize_append, byteSize_append, byteSize_cons, byteSize_nil, Nat.add_zero,
      Nat.add_assoc, List.append_assoc, List.append_assoc, List.singleton_append, Text.lineColumn,
      advance_feed, Nat.zero_add, advance_line place.opening_unbroken, Nat.zero_add]

end Place

/-! ## The table of line starts -/

/-- The offsets behind the line feeds of a text that begins at an offset. -/
def breaks (offset : Nat) : Text → List Nat
  | [] => []
  | char :: rest =>
      if char = '\n' then (offset + char.utf8Size) :: breaks (offset + char.utf8Size) rest
      else breaks (offset + char.utf8Size) rest

/-- The offset of every line's start. -/
def lineStarts (text : Text) : List Nat := 0 :: breaks 0 text

/-- Line and column of a byte offset by the table: its line is the last that does not start
behind it, and its column counts the characters from there. -/
def position (text : Text) (offset : Nat) : Nat × Nat :=
  let offset := min offset text.byteSize
  let line := text.lineStarts.countP (· ≤ offset) - 1
  let start := text.lineStarts[line]?.getD 0
  (line, ((slice? text start offset).map List.length).getD 0)

theorem breaks_append (offset : Nat) (left right : Text) :
    breaks offset (left ++ right) = breaks offset left ++ breaks (offset + left.byteSize) right := by
  induction left generalizing offset with
  | nil => rfl
  | cons char left ih =>
      rw [List.cons_append, breaks, breaks, byteSize_cons, ih, ← Nat.add_assoc]
      split
      · rfl
      · rfl

theorem breaks_unbroken {text : Text} (unbroken : '\n' ∉ text) (offset : Nat) :
    breaks offset text = [] := by
  induction text generalizing offset with
  | nil => rfl
  | cons char text ih =>
      obtain ⟨other, unbroken⟩ := not_or.mp (mt List.mem_cons.mpr unbroken)
      rw [breaks, if_neg (Ne.symm other), ih unbroken]

theorem length_breaks (offset : Nat) (text : Text) :
    (breaks offset text).length = text.count '\n' := by
  induction text generalizing offset with
  | nil => rfl
  | cons char text ih =>
      rw [breaks, List.count_cons]
      by_cases feed : char = '\n'
      · rw [if_pos feed, if_pos (beq_iff_eq.mpr feed), List.length_cons, ih]
      · rw [if_neg feed, if_neg (mt beq_iff_eq.mp feed), ih, Nat.add_zero]

theorem breaks_within {offset start : Nat} {text : Text} (member : start ∈ breaks offset text) :
    offset < start ∧ start ≤ offset + text.byteSize := by
  induction text generalizing offset with
  | nil => nomatch member
  | cons char text ih =>
      have positive := char.utf8Size_pos
      rw [byteSize_cons]
      have onward : start ∈ breaks (offset + char.utf8Size) text →
          offset < start ∧ start ≤ offset + (char.utf8Size + byteSize text) := by
        intro member
        have within := ih member
        omega
      rw [breaks] at member
      split at member
      · rcases List.mem_cons.mp member with rfl | member
        · omega
        · exact onward member
      · exact onward member

namespace Place

variable {text : Text} {offset : Nat} (place : Place text offset)

/-- The table holds the starts up to the line of the place and then those behind it. -/
theorem lineStarts :
    text.lineStarts = place.earlier.lineStarts ++
      breaks (place.earlier ++ place.opening).byteSize (place.closing ++ place.later) := by
  conv_lhs => rw [place.whole]
  rw [Text.lineStarts, breaks_append, breaks_append, breaks_unbroken place.opening_unbroken,
    List.append_nil, Nat.zero_add]
  rfl

theorem countP_lineStarts :
    text.lineStarts.countP (· ≤ min offset text.byteSize) = place.linesBefore + 1 := by
  have before : ∀ start ∈ place.earlier.lineStarts,
      decide (start ≤ (place.earlier ++ place.opening).byteSize) = true := by
    intro start member
    rw [decide_eq_true_iff, byteSize_append]
    rcases List.mem_cons.mp member with rfl | member
    · exact Nat.zero_le _
    · have within := breaks_within member
      omega
  have behind : ∀ start ∈ breaks (place.earlier ++ place.opening).byteSize
      (place.closing ++ place.later),
      ¬decide (start ≤ (place.earlier ++ place.opening).byteSize) = true := by
    intro start member
    rw [decide_eq_true_iff]
    exact Nat.not_le_of_lt (breaks_within member).1
  rw [place.here, place.lineStarts, List.countP_append, List.countP_eq_length.mpr before,
    List.countP_eq_zero.mpr behind, Text.lineStarts, List.length_cons, length_breaks,
    linesBefore_eq, Nat.add_zero]

/-- The line of the place starts where the earlier lines end. -/
theorem lineStarts_getElem? :
    text.lineStarts[place.linesBefore]? = some place.earlier.byteSize := by
  have length : place.earlier.lineStarts.length = place.linesBefore + 1 := by
    rw [Text.lineStarts, List.length_cons, length_breaks, linesBefore_eq]
  rw [place.lineStarts, List.getElem?_append_left (by omega)]
  rcases place.earlier_cases with none | ⟨lines, feed⟩
  · rw [linesBefore_eq, none]
    rfl
  · have last : place.earlier.lineStarts =
        lines.lineStarts ++ [(lines ++ ['\n'] : Text).byteSize] := by
      rw [feed, Text.lineStarts, breaks_append, byteSize_append, Nat.zero_add]
      rfl
    have lastIndex : place.linesBefore = lines.lineStarts.length := by
      rw [last, List.length_append] at length
      simpa using length.symm
    rw [last, lastIndex, List.getElem?_concat_length, feed]

/-- The table gives the same line and column. -/
theorem position : text.position offset = (place.linesBefore, place.opening.length) := by
  have inside : text.slice? place.earlier.byteSize (min offset text.byteSize) =
      some place.opening := by
    rw [place.here]
    refine (congrArg (Text.slice? · _ _) place.whole).trans ?_
    rw [List.append_assoc]
    exact slice?_append _ _ _
  simp only [Text.position]
  rw [place.countP_lineStarts, Nat.add_sub_cancel, place.lineStarts_getElem?, Option.getD_some,
    inside, Option.map_some, Option.getD_some]

end Place

/-! ## The caret -/

/-- A diagnostic names the line of the place, counted from one, repeats it without its line
feed and the carriage returns before that, and sets a caret below the place, behind as many
characters as the line and column of the place tell. -/
theorem annotate_points (text : Text) (file : String) (offset : Nat)
    (placed : text.IsBoundary offset ∨ text.byteSize ≤ offset) :
    ∃ (place : Place text offset) (line returns padding : Text),
      place.opening ++ place.closing = line ++ returns ∧
      (∀ char ∈ returns, char = '\r') ∧ line.getLast? ≠ some '\r' ∧
      List.Forall₂ (fun char mark => mark = if char = '\t' then '\t' else ' ')
        place.opening padding ∧
      text.annotate file offset =
        "In file " ++ file ++ ", line " ++ toString (place.linesBefore + 1) ++ ":\n" ++
          String.ofList line ++ "\n" ++ String.ofList padding ++ "^_" ∧
      text.lineColumn offset = (place.linesBefore, padding.length) ∧
      text.position offset = (place.linesBefore, padding.length) := by
  obtain ⟨place⟩ := Place.exists_of_boundary placed
  obtain ⟨returns, whole, all, dropped⟩ := exists_returns (place.opening ++ place.closing)
  have length : place.opening.caretPadding.length = place.opening.length := List.length_map _
  refine ⟨place, _, returns, place.opening.caretPadding, whole, all, dropped, ?_, ?_, ?_, ?_⟩
  · rw [caretPadding, List.forall₂_map_right_iff, List.forall₂_same]
    exact fun _ _ => rfl
  · unfold annotate
    extract_lets here
    have cut : Text.splitAt? text here = _ := place.splitAt?
    have found : Text.lineColumn text here = _ := (lineColumn_min text offset).trans place.lineColumn
    rw [cut, Option.getD_some, found]
    dsimp only
    rw [lastLine_append place.earlier_ends place.opening_unbroken,
      firstLine_append place.closing_unbroken place.later_begins]
  · rw [place.lineColumn, length]
  · rw [place.position, length]

/-- Behind a tab and a letter of two bytes, in a line that ends with two carriage returns and
a line feed, the caret is in the third column of the second line. -/
theorem annotate_behind_tab :
    IsBoundary "α\r\n\té = x;\r\r\nβ".toList 7 ∧
      ∃ line padding : Text, padding.length = 2 ∧ line.getLast? ≠ some '\r' ∧
        annotate "α\r\n\té = x;\r\r\nβ".toList "main.flow" 7 =
          "In file main.flow, line 2:\n" ++ String.ofList line ++ "\n" ++
            String.ofList padding ++ "^_" := by
  have boundary : IsBoundary "α\r\n\té = x;\r\r\nβ".toList 7 :=
    ⟨"α\r\n\té".toList, " = x;\r\r\nβ".toList, by decide, by decide⟩
  obtain ⟨place, line, returns, padding, -, -, dropped, -, rendered, here, -⟩ :=
    annotate_points _ "main.flow" 7 (.inl boundary)
  have second : lineColumn "α\r\n\té = x;\r\r\nβ".toList 7 = (1, 2) := by decide
  obtain ⟨lines, columns⟩ := Prod.mk.inj (second.symm.trans here)
  rw [← lines] at rendered
  exact ⟨boundary, line, padding, columns.symm, dropped, rendered⟩

example : annotate "first\n\tsecond line".toList "f.flow" 14 =
    "In file f.flow, line 2:\n\tsecond line\n\t       ^_" := by decide +kernel

end Text

end FlowScript
