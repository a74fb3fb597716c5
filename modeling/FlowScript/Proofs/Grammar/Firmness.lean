import FlowScript.Proofs.Grammar.Barrier

/-!
# Statements do not look ahead

A statement ends with a semicolon or with a block. Behind a semicolon only more of them
belong to it, and behind a block only semicolons and further branches. So a statement
stays the same one whatever else comes behind it, and so do statements in a row.
-/

set_option autoImplicit false

namespace FlowScript.Grammar

open Expression hiding rule

/-! ## Taking matches apart -/

section

variable {first second body : Expression Rule} {name : Rule} {words rest : List Text}
  {sketches : List Sketch}

theorem derives_text_iff {symbol : Text} :
    Derives (.text symbol) words (some (sketches, rest)) ↔
      sketches = [] ∧ words = symbol :: rest := by
  constructor
  · intro derives
    cases derives
    exact ⟨rfl, rfl⟩
  · intro parts
    obtain ⟨rfl, rfl⟩ := parts
    exact .text

theorem derives_sequence_iff :
    Derives (.sequence first second) words (some (sketches, rest)) ↔
      ∃ left right middle, sketches = left ++ right ∧ Derives first words (some (left, middle)) ∧
        Derives second middle (some (right, rest)) := by
  constructor
  · intro derives
    cases derives with
    | sequence left right => exact ⟨_, _, _, rfl, left, right⟩
  · intro parts
    obtain ⟨left, right, middle, rfl, firstDerives, secondDerives⟩ := parts
    exact .sequence firstDerives secondDerives

theorem derives_rule_iff (inner : name.isLeaf = false) :
    Derives (.rule name) words (some (sketches, rest)) ↔
      ∃ found, sketches = name.wrap found ∧
        Derives (flow.rules name).body words (some (found, rest)) := by
  constructor
  · intro derives
    cases derives with
    | leaf leaf => cases inner.symm.trans leaf
    | rule _ body => exact ⟨_, rfl, body⟩
  · intro parts
    obtain ⟨found, rfl, body⟩ := parts
    exact .rule inner body

theorem derives_assoc_iff {third : Expression Rule} :
    Derives (.sequence (.sequence first second) third) words (some (sketches, rest)) ↔
      Derives (.sequence first (.sequence second third)) words (some (sketches, rest)) := by
  constructor
  · intro derives
    obtain ⟨_, last, _, rfl, both, thirdDerives⟩ := derives_sequence_iff.mp derives
    obtain ⟨left, right, _, rfl, firstDerives, secondDerives⟩ := derives_sequence_iff.mp both
    rw [List.append_assoc]
    exact .sequence firstDerives (.sequence secondDerives thirdDerives)
  · intro derives
    obtain ⟨left, _, _, rfl, firstDerives, both⟩ := derives_sequence_iff.mp derives
    obtain ⟨right, last, _, rfl, secondDerives, thirdDerives⟩ := derives_sequence_iff.mp both
    rw [← List.append_assoc]
    exact .sequence (.sequence firstDerives secondDerives) thirdDerives

/-- A rule for tokens reads one word, whatever comes behind it. -/
theorem Derives.leaf_word (derives : Derives (.rule name) words (some (sketches, rest)))
    (leaf : name.isLeaf) :
    ∃ word, words = word :: rest ∧ name.reading word = some sketches ∧
      ∀ other, Derives (.rule name) (word :: other) (some (sketches, other)) := by
  cases derives with
  | leaf _ reads => exact ⟨_, rfl, reads, fun _ => .leaf leaf reads⟩
  | rule inner => cases inner.symm.trans leaf

theorem Derives.keyword_word {kind : Keyword}
    (derives : Derives (.rule (.keyword kind)) words (some (sketches, rest))) :
    words = kind.spelling.toList :: rest ∧ ∀ other,
      Derives (.rule (.keyword kind)) (kind.spelling.toList :: other) (some (sketches, other)) := by
  obtain ⟨word, rfl, reads, others⟩ := derives.leaf_word rfl
  obtain rfl := keyword_reading reads
  exact ⟨rfl, others⟩

theorem derives_block_iff :
    Derives (.rule .block) words (some (sketches, rest)) ↔
      ∃ inside found, words = ['\x7b'] :: inside ∧ sketches = Rule.block.wrap found ∧
        Derives (.many (.rule .statement)) inside (some (found, ['\x7d'] :: rest)) := by
  constructor
  · intro derives
    obtain ⟨_, rfl, body⟩ := (derives_rule_iff rfl).mp derives
    obtain ⟨_, _, _, rfl, opening, more⟩ := derives_sequence_iff.mp body
    obtain ⟨rfl, rfl⟩ := derives_text_iff.mp opening
    obtain ⟨found, _, _, rfl, statements, closing⟩ := derives_sequence_iff.mp more
    obtain ⟨rfl, rfl⟩ := derives_text_iff.mp closing
    exact ⟨_, found, rfl, by simp, statements⟩
  · intro parts
    obtain ⟨inside, found, rfl, rfl, statements⟩ := parts
    have body : Derives (flow.rules .block).body (['\x7b'] :: inside)
        (some ([] ++ (found ++ []), rest)) :=
      .sequence .text (.sequence statements .text)
    rw [List.nil_append, List.append_nil] at body
    exact .rule rfl body

end

/-! ## What may come behind a statement -/

/-- The words that can belong to a statement that could end before them. -/
def joiners : List Text := [[';'], Keyword.elifWord.spelling.toList, Keyword.elseWord.spelling.toList]

/-- What comes next does not belong to a statement before it. -/
def Apart (words : List Text) : Prop := ∀ word ∈ words.head?, word ∉ joiners

theorem Apart.left {left right : List Text} (apart : Apart (left ++ right)) : Apart left := by
  cases left with
  | nil => nofun
  | cons word left => exact apart

theorem Apart.append {left right : List Text} (leftApart : Apart left) (rightApart : Apart right) :
    Apart (left ++ right) := by
  cases left with
  | nil => exact rightApart
  | cons word left => exact leftApart

theorem Apart.head_ne {words : List Text} (apart : Apart words) {word : Text}
    (joiner : word ∈ joiners) : words.head? ≠ some word :=
  fun same => apart word same joiner

/-- No statement starts with such a word. -/
theorem Derives.apart {words : List Text} {found : List Sketch × List Text}
    (derives : Derives (.rule .statement) words (some found)) : Apart words := by
  intro word head joiner
  obtain ⟨more, rfl⟩ := List.head?_eq_some_iff.mp head
  have fates : ∀ word ∈ joiners,
      (Expression.rule .statement).fate (wordBars word) = .refuses := by decide
  cases derives.unique (refuses_word (fates word joiner) more)

/-- The statement is the same one, whatever comes behind it that is apart from it. -/
def FirmStatement (words : List Text) : Prop :=
  ∀ {sketches : List Sketch} {rest : List Text},
    Derives (.rule .statement) words (some (sketches, rest)) →
      ∃ used, words = used ++ rest ∧ ∀ other, Apart other →
        Derives (.rule .statement) (used ++ other) (some (sketches, other))

/-- Statements in a row are followed by whatever statements come behind them. -/
theorem statements_firm {words rest : List Text} {sketches : List Sketch}
    (firm : ∀ inner : List Text, inner.length ≤ words.length → FirmStatement inner)
    (derives : Derives (.many (.rule .statement)) words (some (sketches, rest))) :
    ∃ used, words = used ++ rest ∧ Apart used ∧ ∀ {other last : List Text} {more : List Sketch},
      Apart other → Derives (.many (.rule .statement)) other (some (more, last)) →
      Derives (.many (.rule .statement)) (used ++ other) (some (sketches ++ more, last)) := by
  generalize rounds : Expression.many (Expression.rule Rule.statement) = expression at derives
  generalize result : some (sketches, rest) = found at derives
  induction derives generalizing sketches rest with
  | @many _ words middle last found more round _ _ ih =>
      cases rounds
      cases result
      obtain ⟨used, rfl, others⟩ := firm words (Nat.le_refl _) round
      have shorter : ∀ inner : List Text, inner.length ≤ middle.length → FirmStatement inner := by
        intro inner le
        apply firm inner
        rw [List.length_append]
        omega
      obtain ⟨behind, rfl, apart, behindOthers⟩ := ih shorter rfl rfl
      refine ⟨used ++ behind, by simp, (round.apart.left).append apart, ?_⟩
      intro other last more otherApart following
      rw [List.append_assoc, List.append_assoc]
      exact .many (others (behind ++ other) (apart.append otherApart))
        (behindOthers otherApart following)
  | manyEnds =>
      cases rounds
      cases result
      exact ⟨[], rfl, nofun, fun _ following => following⟩
  | _ => cases rounds

/-! ## Blocks and branches -/

def elifBranch : Expression Rule :=
  .sequence (.rule (.keyword .elifWord)) (.rule .conditional)

def elseBranch : Expression Rule := .sequence (.rule (.keyword .elseWord)) (.rule .block)

section

variable {size : Nat} (firm : ∀ inner : List Text, inner.length < size → FirmStatement inner)
  {words rest : List Text} {sketches : List Sketch}

include firm

/-- A block ends with its closing brace. -/
theorem block_firm (short : words.length ≤ size)
    (derives : Derives (.rule .block) words (some (sketches, rest))) :
    ∃ used, words = ['\x7b'] :: used ++ rest ∧
      ∀ other, Derives (.rule .block) (['\x7b'] :: used ++ other) (some (sketches, other)) := by
  obtain ⟨inside, found, rfl, rfl, statements⟩ := derives_block_iff.mp derives
  have inner : ∀ inner : List Text, inner.length ≤ inside.length → FirmStatement inner :=
    fun inner le => firm inner (by rw [List.length_cons] at short; omega)
  obtain ⟨used, rfl, -, others⟩ := statements_firm inner statements
  refine ⟨used ++ [['\x7d']], by simp, fun other => ?_⟩
  have ends : Derives (.many (.rule .statement)) (['\x7d'] :: other)
      (some ([], ['\x7d'] :: other)) :=
    .manyEnds (refuses_word (by decide) other)
  have apart : Apart (['\x7d'] :: other) := by
    rintro word ⟨⟩
    decide
  have whole := others apart ends
  rw [List.append_nil] at whole
  refine derives_block_iff.mpr ⟨used ++ ['\x7d'] :: other, found, by simp, rfl, whole⟩

/-- Something without a block, and then a block. -/
theorem header_firm {header : Expression Rule} (avoids : header.avoids ['\x7b'] false)
    (short : words.length ≤ size)
    (derives : Derives (.sequence header (.rule .block)) words (some (sketches, rest))) :
    ∃ used, words = used ++ rest ∧ used ≠ [] ∧
      ∀ other, Derives (.sequence header (.rule .block)) (used ++ other) (some (sketches, other)) := by
  obtain ⟨left, right, middle, rfl, first, block⟩ := derives_sequence_iff.mp derives
  obtain ⟨front, split, -⟩ := first.spells
  obtain ⟨inside, rfl, blockOthers⟩ :=
    block_firm firm (by rw [split, List.length_append] at short; omega) block
  obtain ⟨used, rfl, others⟩ := Derives.before_block first avoids
  refine ⟨used ++ ['\x7b'] :: inside, by simp, by simp, fun other => ?_⟩
  rw [List.append_assoc]
  exact .sequence (others (inside ++ other)) (blockOthers other)

theorem conditional_firm (short : words.length ≤ size)
    (derives : Derives (.rule .conditional) words (some (sketches, rest))) :
    ∃ used, words = used ++ rest ∧
      ∀ other, Derives (.rule .conditional) (used ++ other) (some (sketches, other)) := by
  obtain ⟨_, rfl, body⟩ := (derives_rule_iff rfl).mp derives
  obtain ⟨used, rfl, -, others⟩ := header_firm firm (by decide) short body
  exact ⟨used, rfl, fun other => .rule rfl (others other)⟩

/-- The further branches of a statement end where no such branch follows. -/
theorem branches_firm (short : words.length ≤ size)
    (derives : Derives (.many elifBranch) words (some (sketches, rest))) :
    ∃ used, words = used ++ rest ∧ ∀ other, other.head? ≠ some Keyword.elifWord.spelling.toList →
      Derives (.many elifBranch) (used ++ other) (some (sketches, other)) := by
  generalize rounds : Expression.many elifBranch = expression at derives
  generalize result : some (sketches, rest) = found at derives
  induction derives generalizing sketches rest with
  | @many _ words middle last found more round _ _ ih =>
      cases rounds
      cases result
      obtain ⟨_, _, _, rfl, keyword, conditional⟩ := derives_sequence_iff.mp round
      obtain ⟨rfl, keywordOthers⟩ := keyword.keyword_word
      rw [List.length_cons] at short
      obtain ⟨used, rfl, others⟩ := conditional_firm firm (by omega) conditional
      rw [List.length_append] at short
      obtain ⟨behind, rfl, behindOthers⟩ := ih (by omega) rfl rfl
      refine ⟨Keyword.elifWord.spelling.toList :: (used ++ behind), by simp, fun other ends => ?_⟩
      have round : Derives elifBranch _ _ :=
        .sequence (keywordOthers _) (others (behind ++ other))
      simpa using Derives.many round (behindOthers other ends)
  | manyEnds =>
      cases rounds
      cases result
      refine ⟨[], rfl, fun other ends => .manyEnds (.sequenceFails (keyword_fails ends))⟩
  | _ => cases rounds

/-- The last branch ends with its block, or there is none. -/
theorem otherwise_firm (short : words.length ≤ size)
    (derives : Derives (.optional elseBranch) words (some (sketches, rest))) :
    ∃ used, words = used ++ rest ∧ (∀ word ∈ used.head?, word = Keyword.elseWord.spelling.toList) ∧
      ∀ other, other.head? ≠ some Keyword.elseWord.spelling.toList →
        Derives (.optional elseBranch) (used ++ other) (some (sketches, other)) := by
  cases derives with
  | optional branch =>
      obtain ⟨_, _, _, rfl, keyword, block⟩ := derives_sequence_iff.mp branch
      obtain ⟨rfl, keywordOthers⟩ := keyword.keyword_word
      rw [List.length_cons] at short
      obtain ⟨inside, rfl, others⟩ := block_firm firm (by omega) block
      refine ⟨Keyword.elseWord.spelling.toList :: (['\x7b'] :: inside), by simp, ?_, ?_⟩
      · rintro word ⟨⟩
        rfl
      · exact fun other _ => .optional (.sequence (keywordOthers _) (others other))
  | optionalSkips =>
      exact ⟨[], rfl, nofun,
        fun other ends => .optionalSkips (.sequenceFails (keyword_fails ends))⟩

theorem ifStatement_firm (short : words.length ≤ size)
    (derives : Derives (.rule .ifStatement) words (some (sketches, rest))) :
    ∃ used, words = Keyword.ifWord.spelling.toList :: used ++ rest ∧
      ∀ other, other.head? ≠ some Keyword.elifWord.spelling.toList → other.head? ≠ some Keyword.elseWord.spelling.toList →
        Derives (.rule .ifStatement) (Keyword.ifWord.spelling.toList :: used ++ other) (some (sketches, other)) := by
  obtain ⟨_, rfl, body⟩ := (derives_rule_iff rfl).mp derives
  obtain ⟨_, _, _, rfl, keyword, more⟩ := derives_sequence_iff.mp body
  obtain ⟨_, _, _, rfl, conditional, others⟩ := derives_sequence_iff.mp more
  obtain ⟨_, _, _, rfl, branches, otherwise⟩ := derives_sequence_iff.mp others
  obtain ⟨rfl, keywordOthers⟩ := keyword.keyword_word
  rw [List.length_cons] at short
  obtain ⟨first, rfl, firstOthers⟩ := conditional_firm firm (by omega) conditional
  rw [List.length_append] at short
  obtain ⟨second, rfl, secondOthers⟩ := branches_firm firm (by omega) branches
  rw [List.length_append] at short
  obtain ⟨third, rfl, heads, thirdOthers⟩ := otherwise_firm firm (by omega) otherwise
  refine ⟨first ++ (second ++ third), by simp, fun other noElif noElse => ?_⟩
  have noBranch : (third ++ other).head? ≠ some Keyword.elifWord.spelling.toList := by
    cases third with
    | nil => exact noElif
    | cons word third =>
        rw [heads word rfl]
        exact of_decide_eq_true rfl
  have body : Derives (flow.rules .ifStatement).body _ _ :=
    .sequence (keywordOthers _) (.sequence (firstOthers _)
      (.sequence (secondOthers _ noBranch) (thirdOthers other noElse)))
  have whole : Derives (.rule .ifStatement) _ _ := .rule rfl body
  simpa using whole

theorem repeatStatement_firm (short : words.length ≤ size)
    (derives : Derives (.rule .repeatStatement) words (some (sketches, rest))) :
    ∃ used, words = Keyword.repeatWord.spelling.toList :: used ++ rest ∧
      ∀ other, Derives (.rule .repeatStatement) (Keyword.repeatWord.spelling.toList :: used ++ other)
        (some (sketches, other)) := by
  obtain ⟨_, rfl, body⟩ := (derives_rule_iff rfl).mp derives
  obtain ⟨_, _, _, rfl, keyword, block⟩ := derives_sequence_iff.mp body
  obtain ⟨rfl, keywordOthers⟩ := keyword.keyword_word
  rw [List.length_cons] at short
  obtain ⟨inside, rfl, others⟩ := block_firm firm (by omega) block
  exact ⟨['\x7b'] :: inside, rfl,
    fun other => .rule rfl (.sequence (keywordOthers _) (others other))⟩

omit firm in
theorem signature_head (derives : Derives (.rule .signature) words (some (sketches, rest))) :
    words.head? = some ['('] := by
  obtain ⟨_, -, body⟩ := (derives_rule_iff rfl).mp derives
  obtain ⟨_, _, _, -, list, -⟩ := derives_sequence_iff.mp body
  obtain ⟨_, _, _, -, opening, -⟩ := derives_sequence_iff.mp list
  obtain ⟨-, rfl⟩ := derives_text_iff.mp opening
  rfl

theorem workflowDefinition_firm (short : words.length ≤ size)
    (derives : Derives (.rule .workflowDefinition) words (some (sketches, rest))) :
    ∃ used, words = used ++ rest ∧
      ∀ other, Derives (.rule .workflowDefinition) (used ++ other) (some (sketches, other)) := by
  obtain ⟨_, rfl, body⟩ := (derives_rule_iff rfl).mp derives
  obtain ⟨_, _, _, rfl, name, afterName⟩ := derives_sequence_iff.mp body
  obtain ⟨_, _, _, rfl, colon, afterColon⟩ := derives_sequence_iff.mp afterName
  obtain ⟨_, _, _, rfl, keyword, definition⟩ := derives_sequence_iff.mp afterColon
  obtain ⟨word, rfl, -, nameOthers⟩ := name.leaf_word rfl
  obtain ⟨rfl, rfl⟩ := derives_text_iff.mp colon
  obtain ⟨rfl, keywordOthers⟩ := keyword.keyword_word
  cases definition with
  | choice plain =>
      obtain ⟨_, _, _, rfl, sign, more⟩ := derives_sequence_iff.mp plain
      obtain ⟨rfl, rfl⟩ := derives_text_iff.mp sign
      obtain ⟨used, rfl, -, others⟩ := header_firm firm (by decide)
        (by simp only [List.length_cons] at short; omega) more
      refine ⟨word :: _ :: _ :: _ :: used, rfl, fun other => ?_⟩
      exact .rule rfl (.sequence (nameOthers _) (.sequence .text (.sequence (keywordOthers _)
        (.choice (.sequence .text (others other))))))
  | choiceElse _ signed =>
      obtain ⟨_, _, _, -, signature, -⟩ := derives_sequence_iff.mp signed
      have head := signature_head signature
      obtain ⟨used, rfl, nonempty, others⟩ := header_firm firm (by decide)
        (by simp only [List.length_cons] at short; omega) (derives_assoc_iff.mpr signed)
      refine ⟨word :: _ :: _ :: used, rfl, fun other => ?_⟩
      have plain : (used ++ other).head? ≠ some ['='] := by
        rw [List.head?_append_of_ne_nil _ nonempty] at head ⊢
        rw [head]
        decide
      exact .rule rfl (.sequence (nameOthers _) (.sequence .text (.sequence (keywordOthers _)
        (.choiceElse (.sequenceFails (.textFails plain)) (derives_assoc_iff.mp (others other))))))

/-- The statements that end with a block. -/
def compound : Expression Rule :=
  .choice (.rule .workflowDefinition) (.choice (.rule .ifStatement) (.rule .repeatStatement))

theorem compound_firm (short : words.length ≤ size)
    (derives : Derives compound words (some (sketches, rest))) :
    ∃ used, words = used ++ rest ∧
      ∀ other, other.head? ≠ some Keyword.elifWord.spelling.toList →
        other.head? ≠ some Keyword.elseWord.spelling.toList →
        Derives compound (used ++ other) (some (sketches, other)) := by
  cases derives with
  | choice workflow =>
      obtain ⟨used, rfl, others⟩ := workflowDefinition_firm firm short workflow
      exact ⟨used, rfl, fun other _ _ => .choice (others other)⟩
  | choiceElse _ others =>
      cases others with
      | choice branch =>
          obtain ⟨used, rfl, others⟩ := ifStatement_firm firm short branch
          refine ⟨_, rfl, fun other noElif noElse => ?_⟩
          exact .choiceElse (refuses_word (by decide) _)
            (.choice (others other noElif noElse))
      | choiceElse _ loop =>
          obtain ⟨used, rfl, others⟩ := repeatStatement_firm firm short loop
          refine ⟨_, rfl, fun other _ _ => ?_⟩
          exact .choiceElse (refuses_word (by decide) _)
            (.choiceElse (refuses_word (by decide) _) (others other))

end

/-! ## Statements -/

/-- The statements that end with a semicolon, without it. -/
def simple : Expression Rule :=
  choiceOf [.rule .importStatement, .rule .delayStatement, .rule .returnStatement,
    .rule .raiseStatement, .rule .breakStatement, .rule .variableDeclaration, .rule .assignment,
    .rule .expressionStatement]

theorem statement_body : (flow.rules .statement).body =
    .choice (.sequence compound (.many (.text [';'])))
      (.sequence simple (.sequence (.text [';']) (.many (.text [';'])))) := rfl

section

variable {words rest : List Text} {sketches : List Sketch}

/-- Semicolons end where there is no further one. -/
theorem semicolons_firm (derives : Derives (.many (.text [';'])) words (some (sketches, rest))) :
    ∃ used, words = used ++ rest ∧ (∀ word ∈ used.head?, word = [';']) ∧
      ∀ other, other.head? ≠ some [';'] →
        Derives (.many (.text [';'])) (used ++ other) (some (sketches, other)) := by
  generalize rounds : Expression.many (.text [';']) = expression at derives
  generalize result : some (sketches, rest) = found at derives
  induction derives generalizing sketches rest with
  | many round _ _ ih =>
      cases rounds
      cases result
      obtain ⟨rfl, rfl⟩ := derives_text_iff.mp round
      obtain ⟨used, rfl, -, others⟩ := ih rfl rfl
      refine ⟨[';'] :: used, rfl, ?_, fun other ends => .many .text (others other ends)⟩
      rintro word ⟨⟩
      rfl
  | manyEnds =>
      cases rounds
      cases result
      exact ⟨[], rfl, nofun, fun other ends => .manyEnds (.textFails ends)⟩
  | _ => cases rounds

theorem simple_firm (fails : Derives (.sequence compound (.many (.text [';']))) words none)
    (derives : Derives (.sequence simple (.sequence (.text [';']) (.many (.text [';'])))) words
      (some (sketches, rest))) :
    ∃ used, words = used ++ rest ∧ ∀ other, other.head? ≠ some [';'] →
      Derives (flow.rules .statement).body (used ++ other) (some (sketches, other)) := by
  obtain ⟨_, _, _, rfl, first, ends⟩ := derives_sequence_iff.mp derives
  obtain ⟨_, _, _, rfl, mark, marks⟩ := derives_sequence_iff.mp ends
  obtain ⟨rfl, rfl⟩ := derives_text_iff.mp mark
  obtain ⟨used, rfl, spells⟩ := first.spells
  obtain ⟨semicolons, rfl, -, markOthers⟩ := semicolons_firm marks
  have noCompound : Derives compound (used ++ [';'] :: (semicolons ++ rest)) none := by
    cases fails with
    | sequenceFails fails => exact fails
    | sequenceBreaks _ none => cases none
  -- No block starts before the semicolon, so it stops the attempts at statements with blocks.
  have member : ([';'], true) ∈ barriers := by decide
  have closed : true → ['\x7b'] ∉ used := fun _ => spells.not_mem_brace (by decide)
  have compoundFails := noCompound.unmoved member rfl (by decide) closed
  obtain ⟨left, same, -, others⟩ := first.unmoved member rfl (by decide) closed
  obtain rfl : left = [] := List.append_left_eq_self.mp same.symm
  refine ⟨used ++ [';'] :: semicolons, by simp, fun other apart => ?_⟩
  rw [statement_body, List.append_assoc]
  exact .choiceElse (.sequenceFails (compoundFails _))
    (.sequence (others _) (.sequence .text (markOthers other apart)))

/-- A statement is the same one, whatever comes behind it that is apart from it. -/
theorem statement_firm (words : List Text) : FirmStatement words := by
  induction length : words.length using Nat.strongRecOn generalizing words with
  | _ size ih =>
      intro sketches rest derives
      have firm : ∀ inner : List Text, inner.length < size → FirmStatement inner :=
        fun inner shorter => ih inner.length shorter inner rfl
      have elif : Keyword.elifWord.spelling.toList ∈ joiners := by decide
      have otherwise : Keyword.elseWord.spelling.toList ∈ joiners := by decide
      obtain ⟨found, rfl, body⟩ := (derives_rule_iff rfl).mp derives
      rw [statement_body] at body
      cases body with
      | choice block =>
          obtain ⟨_, _, _, rfl, first, marks⟩ := derives_sequence_iff.mp block
          obtain ⟨used, rfl, others⟩ := compound_firm firm (Nat.le_of_eq length) first
          obtain ⟨semicolons, rfl, heads, markOthers⟩ := semicolons_firm marks
          refine ⟨used ++ semicolons, by simp, fun other apart => ?_⟩
          have behind : ∀ word ∈ joiners, word ≠ [';'] → (semicolons ++ other).head? ≠ some word := by
            intro word joiner differs same
            cases semicolons with
            | nil => exact apart.head_ne joiner same
            | cons mark semicolons =>
                cases same
                exact differs (heads word rfl)
          rw [List.append_assoc]
          refine .rule rfl (.choice (.sequence ?_ (markOthers other (apart.head_ne (by decide)))))
          exact others _ (behind _ elif (by decide)) (behind _ otherwise (by decide))
      | choiceElse fails ended =>
          obtain ⟨used, rfl, others⟩ := simple_firm fails ended
          exact ⟨used, rfl, fun other apart => .rule rfl (others other (apart.head_ne (by decide)))⟩

end

end FlowScript.Grammar
