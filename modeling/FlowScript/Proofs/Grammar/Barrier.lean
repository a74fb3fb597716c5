import FlowScript.Proofs.Grammar.Spelling

/-!
# Words that stop an expression

What an expression does up to a word that it cannot read does not depend on the words
behind that one. A semicolon stops everything inside a statement that has no block, and
an opening brace stops everything before a block.
-/

set_option autoImplicit false

namespace FlowScript.Grammar

open Expression hiding rule

/-! ## The first word -/

/-- What cannot come where the word comes. -/
def wordBars (word : Text) : Bars where
  text symbol := symbol != word
  leaf name := (name.reading word).isNone
  comes symbol := symbol.isPrefixOf word

theorem wordBars_hold (word : Text) (more : List Text) : (wordBars word).Hold (word :: more) where
  text symbol barred same := by
    cases same
    exact absurd rfl (bne_iff_ne.mp barred)
  leaf name _ barred := by
    rintro other ⟨⟩
    exact Option.isNone_iff_eq_none.mp barred
  comes symbol comes := ⟨word, more, rfl, List.isPrefixOf_iff_prefix.mp comes⟩

/-- An expression that cannot start with the word does not match where the word comes. -/
theorem refuses_word {expression : Expression Rule} {word : Text}
    (fate : expression.fate (wordBars word) = .refuses) (more : List Text) :
    Derives expression (word :: more) none :=
  refuses_of_fate (wordBars_hold word more).laws fate

theorem wholeWord_rest {spelling : String} {before text : Text} {found : Match Rule}
    (yields : flow.Yields (Rule.wholeWord spelling) .sealed (.after before text) (some found)) :
    text = spelling.toList ++ found.cursor.rest := by
  cases yields with
  | sequence first gap second =>
      cases first with
      | text taken =>
          by_cases starts : spelling.toList <+: text
          · obtain ⟨tail, rfl⟩ := starts
            cases taken.symm.trans (Cursor.take?_after before spelling.toList tail)
            cases gap
            cases second
            rfl
          · cases taken.symm.trans (Cursor.take?_eq_none starts)

/-- A keyword is read from its own spelling only. -/
theorem keyword_reading {kind : Keyword} {word : Text} {sketches : List Sketch}
    (reads : (Rule.keyword kind).reading word = some sketches) : word = kind.spelling.toList := by
  have shows := (flow_parse_shows (.keyword kind) word).2
  unfold Rule.reading at reads
  cases parsed : flow.parse (.keyword kind) word with
  | exhausted | failed =>
      rw [parsed] at reads
      cases reads
  | matched nodes cursor furthest =>
      rw [parsed] at reads shows
      obtain ⟨tokens, yields⟩ := shows
      have none : cursor.rest = [] := by
        apply List.isEmpty_iff.mp
        apply Decidable.byContradiction
        intro goes
        simp [goes] at reads
      generalize same : (⟨nodes, cursor, tokens⟩ : Match Rule) = found at yields
      cases yields with
      | rule body =>
          have whole := @wholeWord_rest kind.spelling [] word _ body
          have reached := congrArg (·.cursor.rest) same
          simp only [Match.close] at reached
          rw [← reached, none, List.append_nil] at whole
          exact whole

/-- Where another word comes, or none, no keyword is read. -/
theorem keyword_fails {kind : Keyword} {words : List Text}
    (other : words.head? ≠ some kind.spelling.toList) : Derives (.rule (.keyword kind)) words none := by
  apply Derives.leafFails rfl
  intro word head
  cases reads : (Rule.keyword kind).reading word with
  | none => rfl
  | some sketches =>
      rw [keyword_reading reads] at head
      exact absurd head other

/-! ## Barriers -/

/-- The rules inside a statement; those with blocks only if these are allowed. -/
def Rule.isInner (blocks : Bool) (name : Rule) : Bool :=
  (name.isLeaf || name.isSpaced) &&
    match name with
    | .statement | .endOfInput | .program | .expressionOnly => false
    | .block | .conditional | .ifStatement | .repeatStatement | .workflowDefinition => blocks
    | _ => true

/-- The expression does not read the word, and uses inner rules only. -/
def Expression.avoids (barrier : Text) (blocks : Bool) : Expression Rule → Bool
  | .empty | .absent _ => true
  | .text symbol => symbol != barrier
  | .rule name => name.isInner blocks
  | .sequence first second | .choice first second =>
      first.avoids barrier blocks && second.avoids barrier blocks
  | .optional body | .many body => body.avoids barrier blocks
  | .oneOf _ | .endOfInput | .manyMore _ => false

/-- A semicolon may stop what has blocks, as long as none of them starts before it. -/
def barriers : List (Text × Bool) := [([';'], true), (['\x7b'], false)]

section

variable {barrier : Text} {blocks : Bool} (member : (barrier, blocks) ∈ barriers)

include member

theorem leaf_barrier {name : Rule} (leaf : name.isLeaf) : name.reading barrier = none := by
  have checked : ∀ both ∈ barriers, ∀ name : Rule,
      !name.isLeaf || (name.reading both.1).isNone := by
    intro both member
    apply Rule.forall_of_all
    revert both
    decide
  have either := checked _ member name
  simp only [leaf, Bool.not_true, Bool.false_or] at either
  exact Option.isNone_iff_eq_none.mp either

theorem body_avoids {name : Rule} (inner : name.isInner blocks) (leaf : name.isLeaf = false)
    (other : name ≠ .block) : (flow.rules name).body.avoids barrier blocks := by
  have checked : ∀ both ∈ barriers, ∀ name : Rule, !name.isInner both.2 || name.isLeaf ||
      name == .block || (flow.rules name).body.avoids both.1 both.2 := by
    intro both member
    apply Rule.forall_of_all
    revert both
    decide
  have either := checked _ member name
  have apart : (name == .block) = false := beq_eq_false_iff_ne.mpr other
  simpa only [inner, leaf, apart, Bool.not_true, Bool.false_or] using either

omit member in
/-- The first of the words does not depend on what is behind the barrier. -/
theorem head_barrier (barrier : Text) (front tail other : List Text) :
    (front ++ barrier :: other).head? = (front ++ barrier :: tail).head? := by
  cases front <;> rfl

/-- What the expression does with the words before the barrier, whatever is behind it. -/
def Unmoved (barrier : Text) (expression : Expression Rule) (front tail : List Text) :
    Option (List Sketch × List Text) → Prop
  | none => ∀ other, Derives expression (front ++ barrier :: other) none
  | some (sketches, rest) =>
      ∃ left, rest = left ++ barrier :: tail ∧ left <:+ front ∧
        ∀ other, Derives expression (front ++ barrier :: other)
          (some (sketches, left ++ barrier :: other))

/-- Before the barrier no block starts. -/
theorem block_refuses_before {front : List Text} (inner : Rule.block.isInner blocks)
    (closed : blocks → ['\x7b'] ∉ front) (tail : List Text) :
    Derives (.rule .block) (front ++ barrier :: tail) none := by
  have allowed : blocks := inner
  have opening : (front ++ barrier :: tail).head? ≠ some ['\x7b'] := by
    intro same
    cases front with
    | nil =>
        cases same
        have apart : ∀ both ∈ barriers, both.1 = ['\x7b'] → both.2 = false := by decide
        exact absurd (allowed.symm.trans (apart _ member rfl)) (by decide)
    | cons word front =>
        cases same
        exact closed allowed List.mem_cons_self
  exact .ruleFails rfl (.sequenceFails (.textFails opening))

/-- What an expression does up to the barrier does not depend on what is behind it. -/
theorem Derives.unmoved {expression : Expression Rule} {words : List Text}
    {result : Option (List Sketch × List Text)} (derives : Derives expression words result)
    {front tail : List Text} (split : words = front ++ barrier :: tail)
    (avoids : expression.avoids barrier blocks)
    (closed : blocks → ['\x7b'] ∉ front) : Unmoved barrier expression front tail result := by
  induction derives generalizing front tail with
  | empty =>
      subst split
      exact ⟨front, rfl, List.suffix_refl _, fun _ => .empty⟩
  | text =>
      cases front with
      | nil =>
          cases split
          exact absurd rfl (bne_iff_ne.mp avoids)
      | cons word front =>
          cases split
          exact ⟨front, rfl, List.suffix_cons _ _, fun _ => .text⟩
  | textFails differs =>
      subst split
      exact fun other => .textFails (head_barrier barrier front tail other ▸ differs)
  | endOfInput | endOfInputFails => cases avoids
  | leaf leaf reading =>
      cases front with
      | nil =>
          cases split
          cases reading.symm.trans (leaf_barrier member leaf)
      | cons word front =>
          cases split
          exact ⟨front, rfl, List.suffix_cons _ _, fun _ => .leaf leaf reading⟩
  | leafFails leaf none =>
      subst split
      exact fun other => .leafFails leaf (head_barrier barrier front tail other ▸ none)
  | @rule name _ _ _ inner body ih =>
      by_cases block : name = .block
      · subst block split
        cases (block_refuses_before member avoids closed tail).unique (.rule inner body)
      · obtain ⟨left, same, suffix, others⟩ :=
          ih split (body_avoids member avoids inner block) closed
        exact ⟨left, same, suffix, fun other => .rule inner (others other)⟩
  | @ruleFails name _ inner _ ih =>
      by_cases block : name = .block
      · subst block
        exact block_refuses_before member avoids closed
      · have others := ih split (body_avoids member avoids inner block) closed
        exact fun other => .ruleFails inner (others other)
  | sequence _ _ first second =>
      obtain ⟨firstAvoids, secondAvoids⟩ := Bool.and_eq_true_iff.mp avoids
      obtain ⟨middle, same, suffix, firstOthers⟩ := first split firstAvoids closed
      obtain ⟨left, rest, more, secondOthers⟩ := second same secondAvoids
        fun allowed member => closed allowed (suffix.subset member)
      exact ⟨left, rest, more.trans suffix,
        fun other => .sequence (firstOthers other) (secondOthers other)⟩
  | sequenceFails _ first =>
      have others := first split (Bool.and_eq_true_iff.mp avoids).1 closed
      exact fun other => .sequenceFails (others other)
  | sequenceBreaks _ _ first second =>
      obtain ⟨firstAvoids, secondAvoids⟩ := Bool.and_eq_true_iff.mp avoids
      obtain ⟨middle, same, suffix, firstOthers⟩ := first split firstAvoids closed
      have others := second same secondAvoids
        fun allowed member => closed allowed (suffix.subset member)
      exact fun other => .sequenceBreaks (firstOthers other) (others other)
  | choice _ ih =>
      obtain ⟨left, same, suffix, others⟩ := ih split (Bool.and_eq_true_iff.mp avoids).1 closed
      exact ⟨left, same, suffix, fun other => .choice (others other)⟩
  | @choiceElse _ _ _ result _ _ first second =>
      obtain ⟨firstAvoids, secondAvoids⟩ := Bool.and_eq_true_iff.mp avoids
      have fails := first split firstAvoids closed
      have others := second split secondAvoids closed
      cases result with
      | none => exact fun other => .choiceElse (fails other) (others other)
      | some found =>
          obtain ⟨left, same, suffix, others⟩ := others
          exact ⟨left, same, suffix, fun other => .choiceElse (fails other) (others other)⟩
  | optional _ ih =>
      obtain ⟨left, same, suffix, others⟩ := ih split avoids closed
      exact ⟨left, same, suffix, fun other => .optional (others other)⟩
  | optionalSkips _ ih =>
      have others := ih split avoids closed
      exact ⟨front, split, List.suffix_refl _, fun other => .optionalSkips (others other)⟩
  | many _ _ first rest =>
      obtain ⟨middle, same, suffix, firstOthers⟩ := first split avoids closed
      obtain ⟨left, rest, more, restOthers⟩ := rest same avoids
        fun allowed member => closed allowed (suffix.subset member)
      exact ⟨left, rest, more.trans suffix,
        fun other => .many (firstOthers other) (restOthers other)⟩
  | manyEnds _ ih =>
      have others := ih split avoids closed
      exact ⟨front, split, List.suffix_refl _, fun other => .manyEnds (others other)⟩
  | absent differs =>
      subst split
      exact ⟨front, rfl, List.suffix_refl _,
        fun other => .absent (head_barrier barrier front tail other ▸ differs)⟩
  | absentFails starts =>
      cases front with
      | nil =>
          cases split
          exact fun other => .absentFails starts
      | cons word front =>
          cases split
          exact fun other => .absentFails starts

end

/-- What comes before blocks is written without braces. -/
theorem Spells.not_mem_brace {expression : Expression Rule} {words : List Text}
    {sketches : List Sketch} (spells : Spells expression words sketches)
    (avoids : expression.avoids ['\x7b'] false) : ['\x7b'] ∉ words := by
  have member : (['\x7b'], false) ∈ barriers := by decide
  induction spells with
  | empty | endOfInput | optionalSkips | manyEnds | absent => exact List.not_mem_nil
  | text =>
      intro same
      cases List.mem_singleton.mp same
      cases avoids
  | leaf leaf reading =>
      intro same
      cases List.mem_singleton.mp same
      cases reading.symm.trans (leaf_barrier member leaf)
  | rule inner _ ih =>
      apply ih (body_avoids member avoids inner _)
      rintro rfl
      cases avoids
  | sequence _ _ first second =>
      obtain ⟨firstAvoids, secondAvoids⟩ := Bool.and_eq_true_iff.mp avoids
      intro within
      rcases List.mem_append.mp within with left | right
      · exact first firstAvoids left
      · exact second secondAvoids right
  | choice _ ih => exact ih (Bool.and_eq_true_iff.mp avoids).1
  | choiceElse _ ih => exact ih (Bool.and_eq_true_iff.mp avoids).2
  | optional _ ih => exact ih avoids
  | many _ _ first rest =>
      intro within
      rcases List.mem_append.mp within with left | right
      · exact first avoids left
      · exact rest avoids right

/-- What is matched before a block is matched before every block. -/
theorem Derives.before_block {expression : Expression Rule} {words tail : List Text}
    {sketches : List Sketch}
    (derives : Derives expression words (some (sketches, ['\x7b'] :: tail)))
    (avoids : expression.avoids ['\x7b'] false) :
    ∃ used, words = used ++ ['\x7b'] :: tail ∧
      ∀ other, Derives expression (used ++ ['\x7b'] :: other) (some (sketches, ['\x7b'] :: other)) := by
  obtain ⟨used, rfl, -⟩ := derives.spells
  have member : (['\x7b'], false) ∈ barriers := by decide
  obtain ⟨left, same, -, others⟩ := derives.unmoved member rfl avoids nofun
  obtain rfl : left = [] := List.append_left_eq_self.mp same.symm
  exact ⟨used, rfl, others⟩

end FlowScript.Grammar
