import FlowScript.Proofs.Grammar.Firmness

/-!
# Brackets end what is inside of them

An expression reads brackets in pairs. So what is read inside of a bracket ends at the
bracket that closes it, and what comes behind that one does not matter: an expression in
brackets is read the same wherever it stands.
-/

set_option autoImplicit false

namespace FlowScript.Grammar

open Expression hiding rule

/-! ## Open brackets -/

/-- How many brackets are open behind the word; none if it closes one that is not open. -/
def bracketsBehind (opened : Nat) (word : Text) : Option Nat :=
  if word = ['('] ∨ word = ['['] then some (opened + 1)
  else if word = [')'] ∨ word = [']'] then
    match opened with
    | 0 => none
    | rest + 1 => some rest
  else some opened

/-- How many brackets are open behind the words. -/
def allBracketsBehind (opened : Nat) (words : List Text) : Option Nat :=
  words.foldlM bracketsBehind opened

theorem allBracketsBehind_cons (opened : Nat) (word : Text) (words : List Text) :
    allBracketsBehind opened (word :: words) =
      (bracketsBehind opened word).bind (allBracketsBehind · words) := by
  simp [allBracketsBehind, List.foldlM_cons]

theorem allBracketsBehind_append (opened : Nat) (left right : List Text) :
    allBracketsBehind opened (left ++ right) =
      (allBracketsBehind opened left).bind (allBracketsBehind · right) := by
  simp [allBracketsBehind, List.foldlM_append]

/-- The words close a bracket that is not open yet. -/
def Overcloses (opened : Nat) (words : List Text) : Prop := allBracketsBehind opened words = none

theorem Overcloses.exists_cons {opened : Nat} {words : List Text}
    (closes : Overcloses opened words) : ∃ word rest, words = word :: rest := by
  cases words with
  | nil => cases closes
  | cons word rest => exact ⟨word, rest, rfl⟩

/-- What is left behind a word still closes too much. -/
theorem Overcloses.behind {opened behind : Nat} {word : Text} {words : List Text}
    (closes : Overcloses opened (word :: words)) (step : bracketsBehind opened word = some behind) :
    Overcloses behind words := by
  rw [Overcloses, allBracketsBehind_cons, step] at closes
  exact closes

theorem bracketsBehind_add {opened behind : Nat} {word : Text}
    (step : bracketsBehind opened word = some behind) (more : Nat) :
    bracketsBehind (opened + more) word = some (behind + more) := by
  unfold bracketsBehind at step ⊢
  split at step
  · next opens =>
      rw [if_pos opens]
      cases step
      congr 1
      omega
  · next opens =>
      rw [if_neg opens]
      split at step
      · next closes =>
          rw [if_pos closes]
          cases opened with
          | zero => cases step
          | succ rest =>
              cases step
              rw [Nat.add_right_comm]
      · next closes =>
          rw [if_neg closes]
          cases step
          rfl

/-- No rule for tokens reads a bracket. -/
theorem leaf_bracket {name : Rule} (leaf : name.isLeaf) {bracket : Char}
    (member : bracket ∈ ['(', '[', ')', ']']) : name.reading [bracket] = none := by
  have facts : ['(', '[', ')', ']'].all fun bracket => !startsOther bracket &&
      !isWordStart bracket && !bracket.isDigit && bracket != '.' := by decide
  have each := List.all_eq_true.mp facts bracket member
  simp only [Bool.and_eq_true, Bool.not_eq_true', bne_iff_ne] at each
  obtain ⟨⟨⟨other, word⟩, digit⟩, point⟩ := each
  by_cases literal : name = .literal
  · subst literal
    apply Misses.reading
    refine misses_literal_of_stops (Text.stops_cons.mpr other) (Text.stops_cons.mpr digit) ?_
    intro tail same
    exact absurd (List.cons.inj same).1 point
  · exact (leaf_misses leaf literal (Text.stops_cons.mpr word)).reading

theorem leaf_bracketsBehind {name : Rule} {word : Text} {sketches : List Sketch}
    (leaf : name.isLeaf) (reading : name.reading word = some sketches) (opened : Nat) :
    bracketsBehind opened word = some opened := by
  have apart : ∀ bracket ∈ ['(', '[', ')', ']'], word ≠ [bracket] := by
    rintro bracket member rfl
    cases reading.symm.trans (leaf_bracket leaf member)
  unfold bracketsBehind
  rw [if_neg (not_or.mpr ⟨apart _ (by decide), apart _ (by decide)⟩),
    if_neg (not_or.mpr ⟨apart _ (by decide), apart _ (by decide)⟩)]

/-! ## Expressions with brackets in pairs -/

/-- How many brackets are open behind a match of the expression, if this can be told. Every
rule closes the brackets that it opens. -/
def Expression.bracketsBehind (opened : Nat) : Expression Rule → Option Nat
  | .empty | .absent _ => some opened
  | .text symbol => Grammar.bracketsBehind opened symbol
  | .rule name => if name.isInner false then some opened else none
  | .sequence first second => (first.bracketsBehind opened).bind fun middle =>
      second.bracketsBehind middle
  | .choice first second =>
      if first.bracketsBehind opened = second.bracketsBehind opened then
        first.bracketsBehind opened
      else none
  | .optional body | .many body =>
      if body.bracketsBehind opened = some opened then some opened else none
  | .oneOf _ | .endOfInput | .manyMore _ => none

namespace Expression

variable {first second body : Expression Rule} {opened behind : Nat}

theorem bracketsBehind_sequence
    (brackets : (Expression.sequence first second).bracketsBehind opened = some behind) :
    ∃ middle, first.bracketsBehind opened = some middle ∧
      second.bracketsBehind middle = some behind :=
  Option.bind_eq_some_iff.mp brackets

theorem bracketsBehind_choice
    (brackets : (Expression.choice first second).bracketsBehind opened = some behind) :
    first.bracketsBehind opened = some behind ∧ second.bracketsBehind opened = some behind := by
  rw [bracketsBehind] at brackets
  split at brackets
  · next same => exact ⟨brackets, same ▸ brackets⟩
  · cases brackets

theorem bracketsBehind_repeated
    (brackets : (if body.bracketsBehind opened = some opened then some opened else none) =
      some behind) : body.bracketsBehind opened = some opened ∧ opened = behind := by
  split at brackets
  · next balanced => exact ⟨balanced, Option.some.inj brackets⟩
  · cases brackets

theorem bracketsBehind_rule {name : Rule}
    (brackets : (Expression.rule name).bracketsBehind opened = some behind) :
    name.isInner false ∧ opened = behind := by
  rw [bracketsBehind] at brackets
  split at brackets
  · next inner => exact ⟨inner, Option.some.inj brackets⟩
  · cases brackets

/-- Further open brackets stay open. -/
theorem bracketsBehind_add {expression : Expression Rule} {opened behind : Nat}
    (brackets : expression.bracketsBehind opened = some behind) (more : Nat) :
    expression.bracketsBehind (opened + more) = some (behind + more) := by
  induction expression generalizing opened behind with
  | empty | absent =>
      cases brackets
      rfl
  | text symbol => exact Grammar.bracketsBehind_add brackets more
  | rule name =>
      obtain ⟨inner, rfl⟩ := bracketsBehind_rule brackets
      exact if_pos inner
  | sequence first second firstIh secondIh =>
      obtain ⟨middle, left, right⟩ := bracketsBehind_sequence brackets
      exact Option.bind_eq_some_iff.mpr ⟨_, firstIh left, secondIh right⟩
  | choice first second firstIh secondIh =>
      obtain ⟨left, right⟩ := bracketsBehind_choice brackets
      rw [bracketsBehind, firstIh left, secondIh right, if_pos rfl]
  | optional body ih | many body ih =>
      obtain ⟨balanced, rfl⟩ := bracketsBehind_repeated brackets
      exact if_pos (ih balanced)
  | oneOf | endOfInput | manyMore => cases brackets

end Expression

/-- The body of a rule closes the brackets that it opens. -/
theorem body_bracketsBehind {name : Rule} (inner : name.isInner false) (leaf : name.isLeaf = false)
    (opened : Nat) : (flow.rules name).body.bracketsBehind opened = some opened := by
  have checked : ∀ name : Rule, !name.isInner false || name.isLeaf ||
      (flow.rules name).body.bracketsBehind 0 = some 0 :=
    Rule.forall_of_all (by decide)
  have either := checked name
  simp only [inner, leaf, Bool.not_true, Bool.false_or, decide_eq_true_eq] at either
  have shifted := Expression.bracketsBehind_add either opened
  rwa [Nat.zero_add] at shifted

/-- What an expression is spelled with has the brackets of the expression. -/
theorem Spells.bracketsBehind {expression : Expression Rule} {words : List Text}
    {sketches : List Sketch} (spells : Spells expression words sketches) {opened behind : Nat}
    (brackets : expression.bracketsBehind opened = some behind) :
    allBracketsBehind opened words = some behind := by
  induction spells generalizing opened behind with
  | empty | absent => exact brackets
  | text => rw [allBracketsBehind_cons, show Grammar.bracketsBehind _ _ = _ from brackets]; rfl
  | endOfInput => cases brackets
  | leaf leaf reading =>
      obtain ⟨-, rfl⟩ := Expression.bracketsBehind_rule brackets
      rw [allBracketsBehind_cons, leaf_bracketsBehind leaf reading]
      rfl
  | rule leaf _ ih =>
      obtain ⟨inner, rfl⟩ := Expression.bracketsBehind_rule brackets
      exact ih (body_bracketsBehind inner leaf _)
  | sequence _ _ first second =>
      obtain ⟨middle, left, right⟩ := Expression.bracketsBehind_sequence brackets
      rw [allBracketsBehind_append, first left]
      exact second right
  | choice _ ih => exact ih (Expression.bracketsBehind_choice brackets).1
  | choiceElse _ ih => exact ih (Expression.bracketsBehind_choice brackets).2
  | optional _ ih =>
      obtain ⟨balanced, rfl⟩ := Expression.bracketsBehind_repeated brackets
      exact ih balanced
  | optionalSkips | manyEnds =>
      obtain ⟨-, rfl⟩ := Expression.bracketsBehind_repeated brackets
      rfl
  | many _ _ first rest =>
      obtain ⟨balanced, rfl⟩ := Expression.bracketsBehind_repeated brackets
      rw [allBracketsBehind_append, first balanced]
      exact rest (if_pos balanced)

/-! ## Up to the closing bracket -/

/-- What the expression does with words that close a bracket, whatever is behind them. -/
def Sheltered (expression : Expression Rule) (front tail : List Text) (behind : Nat) :
    Option (List Sketch × List Text) → Prop
  | none => ∀ other, Derives expression (front ++ other) none
  | some (sketches, rest) =>
      ∃ left, rest = left ++ tail ∧ Overcloses behind left ∧
        ∀ other, Derives expression (front ++ other) (some (sketches, left ++ other))

/-- What an expression with brackets in pairs does before a bracket is closed that it has not
opened does not depend on what is behind that bracket. -/
theorem Derives.sheltered {expression : Expression Rule} {words : List Text}
    {result : Option (List Sketch × List Text)} (derives : Derives expression words result)
    {front tail : List Text} (split : words = front ++ tail) {opened behind : Nat}
    (brackets : expression.bracketsBehind opened = some behind)
    (closes : Overcloses opened front) : Sheltered expression front tail behind result := by
  induction derives generalizing front tail opened behind with
  | empty =>
      cases brackets
      exact ⟨front, split, closes, fun _ => .empty⟩
  | text =>
      obtain ⟨word, front, rfl⟩ := closes.exists_cons
      cases split
      exact ⟨front, rfl, closes.behind brackets, fun _ => .text⟩
  | textFails differs =>
      obtain ⟨word, front, rfl⟩ := closes.exists_cons
      subst split
      exact fun _ => .textFails differs
  | endOfInput | endOfInputFails => cases brackets
  | leaf leaf reading =>
      obtain ⟨-, rfl⟩ := Expression.bracketsBehind_rule brackets
      obtain ⟨word, front, rfl⟩ := closes.exists_cons
      cases split
      exact ⟨front, rfl, closes.behind (leaf_bracketsBehind leaf reading _),
        fun _ => .leaf leaf reading⟩
  | leafFails leaf none =>
      obtain ⟨word, front, rfl⟩ := closes.exists_cons
      subst split
      exact fun _ => .leafFails leaf none
  | rule leaf _ ih =>
      obtain ⟨inner, rfl⟩ := Expression.bracketsBehind_rule brackets
      obtain ⟨left, same, closing, others⟩ := ih split (body_bracketsBehind inner leaf _) closes
      exact ⟨left, same, closing, fun other => .rule leaf (others other)⟩
  | ruleFails leaf _ ih =>
      obtain ⟨inner, rfl⟩ := Expression.bracketsBehind_rule brackets
      have others := ih split (body_bracketsBehind inner leaf _) closes
      exact fun other => .ruleFails leaf (others other)
  | sequence _ _ first second =>
      obtain ⟨between, leftBrackets, rightBrackets⟩ := Expression.bracketsBehind_sequence brackets
      obtain ⟨middle, same, closing, firstOthers⟩ := first split leftBrackets closes
      obtain ⟨left, rest, closing, secondOthers⟩ := second same rightBrackets closing
      exact ⟨left, rest, closing, fun other => .sequence (firstOthers other) (secondOthers other)⟩
  | sequenceFails _ first =>
      obtain ⟨between, leftBrackets, -⟩ := Expression.bracketsBehind_sequence brackets
      have others := first split leftBrackets closes
      exact fun other => .sequenceFails (others other)
  | sequenceBreaks _ _ first second =>
      obtain ⟨between, leftBrackets, rightBrackets⟩ := Expression.bracketsBehind_sequence brackets
      obtain ⟨middle, same, closing, firstOthers⟩ := first split leftBrackets closes
      have others := second same rightBrackets closing
      exact fun other => .sequenceBreaks (firstOthers other) (others other)
  | choice _ ih =>
      obtain ⟨left, same, closing, others⟩ :=
        ih split (Expression.bracketsBehind_choice brackets).1 closes
      exact ⟨left, same, closing, fun other => .choice (others other)⟩
  | @choiceElse _ _ _ result _ _ first second =>
      obtain ⟨leftBrackets, rightBrackets⟩ := Expression.bracketsBehind_choice brackets
      have fails := first split leftBrackets closes
      have others := second split rightBrackets closes
      cases result with
      | none => exact fun other => .choiceElse (fails other) (others other)
      | some found =>
          obtain ⟨left, same, closing, others⟩ := others
          exact ⟨left, same, closing, fun other => .choiceElse (fails other) (others other)⟩
  | optional _ ih =>
      obtain ⟨balanced, rfl⟩ := Expression.bracketsBehind_repeated brackets
      obtain ⟨left, same, closing, others⟩ := ih split balanced closes
      exact ⟨left, same, closing, fun other => .optional (others other)⟩
  | optionalSkips _ ih =>
      obtain ⟨balanced, rfl⟩ := Expression.bracketsBehind_repeated brackets
      have others := ih split balanced closes
      exact ⟨front, split, closes, fun other => .optionalSkips (others other)⟩
  | many _ _ first rest =>
      obtain ⟨balanced, rfl⟩ := Expression.bracketsBehind_repeated brackets
      obtain ⟨middle, same, closing, firstOthers⟩ := first split balanced closes
      obtain ⟨left, rest, closing, restOthers⟩ := rest same brackets closing
      exact ⟨left, rest, closing, fun other => .many (firstOthers other) (restOthers other)⟩
  | manyEnds _ ih =>
      obtain ⟨balanced, rfl⟩ := Expression.bracketsBehind_repeated brackets
      have others := ih split balanced closes
      exact ⟨front, split, closes, fun other => .manyEnds (others other)⟩
  | absent differs =>
      cases brackets
      obtain ⟨word, front, rfl⟩ := closes.exists_cons
      subst split
      exact ⟨word :: front, rfl, closes, fun _ => .absent differs⟩
  | absentFails starts =>
      obtain ⟨word, front, rfl⟩ := closes.exists_cons
      cases split
      exact fun _ => .absentFails starts

section

variable {opening closing : Text} {body : Expression Rule} {words rest : List Text}
  {sketches : List Sketch} (balanced : body.bracketsBehind 0 = some 0)
  (closes : bracketsBehind 0 closing = none)

include balanced closes

/-- An expression in brackets ends with its closing bracket, whatever comes behind that one. -/
theorem bracketed_firm
    (derives : Derives (.sequence (.text opening) (.sequence body (.text closing))) words
      (some (sketches, rest))) :
    ∃ inside, words = opening :: (inside ++ [closing]) ++ rest ∧
      Overcloses 0 (inside ++ [closing]) ∧
      ∀ other, Derives (.sequence (.text opening) (.sequence body (.text closing)))
        (opening :: (inside ++ [closing]) ++ other) (some (sketches, other)) := by
  obtain ⟨_, _, _, rfl, opens, more⟩ := derives_sequence_iff.mp derives
  obtain ⟨rfl, rfl⟩ := derives_text_iff.mp opens
  obtain ⟨_, _, _, rfl, inner, ends⟩ := derives_sequence_iff.mp more
  obtain ⟨rfl, rfl⟩ := derives_text_iff.mp ends
  obtain ⟨inside, rfl, spells⟩ := inner.spells
  have overcloses : Overcloses 0 (inside ++ [closing]) := by
    rw [Overcloses, allBracketsBehind_append, spells.bracketsBehind balanced, Option.bind_some,
      allBracketsBehind_cons, closes]
    rfl
  obtain ⟨left, same, -, others⟩ :=
    inner.sheltered (show inside ++ closing :: rest = (inside ++ [closing]) ++ rest by simp)
      balanced overcloses
  obtain rfl : left = [closing] := List.append_cancel_right same.symm
  exact ⟨inside, by simp, overcloses, fun other => .sequence .text (.sequence (others other) .text)⟩

omit closes in
/-- What is not the inside of the brackets is not, whatever comes behind the brackets. -/
theorem bracketed_fails {inside tail : List Text} (overcloses : Overcloses 0 inside)
    (derives : Derives (.sequence (.text opening) (.sequence body (.text closing)))
      (opening :: (inside ++ tail)) none) (other : List Text) :
    Derives (.sequence (.text opening) (.sequence body (.text closing)))
      (opening :: (inside ++ other)) none := by
  cases derives with
  | sequenceFails opens => cases opens.unique .text
  | sequenceBreaks opens more =>
      obtain ⟨rfl, same⟩ := derives_text_iff.mp opens
      cases same
      refine .sequenceBreaks .text ?_
      cases more with
      | sequenceFails inner =>
          exact .sequenceFails (inner.sheltered rfl balanced overcloses other)
      | sequenceBreaks inner ends =>
          obtain ⟨left, rfl, closing, others⟩ := inner.sheltered rfl balanced overcloses
          obtain ⟨word, left, rfl⟩ := closing.exists_cons
          cases ends with
          | textFails differs => exact .sequenceBreaks (others other) (.textFails differs)

end

end FlowScript.Grammar
