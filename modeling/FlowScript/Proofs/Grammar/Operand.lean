import FlowScript.Proofs.Grammar.Brackets

/-!
# Operands do not look ahead

A literal is one token, a path goes on only behind a point, and everything else that an
operand can be ends with a bracket. So an operand ends where neither a point nor an
opening parenthesis comes next. Only `await` and `try` go on behind that, since they
take a whole expression with them.
-/

set_option autoImplicit false

namespace FlowScript.Grammar

open Expression hiding rule

variable {words rest : List Text} {sketches found : List Sketch}

/-- What comes next does not go on with an operand. -/
structure EndsOperand (words : List Text) : Prop where
  point : words.head? ≠ some ['.']
  parenthesis : words.head? ≠ some ['(']

/-! ## Single words -/

/-- Holds for expressions that read one word and look at no other one. -/
def Expression.isHead : Expression Rule → Bool
  | .text _ => true
  | .rule name =>
      name.isLeaf || (match (flow.rules name).body with
        | .text _ => true
        | _ => false)
  | .choice first second => first.isHead && second.isHead
  | _ => false

/-- What such an expression does depends on the first word alone. -/
theorem Derives.head_only {expression : Expression Rule} {word : Text} {more other : List Text}
    {result : Option (List Sketch × List Text)} (heads : expression.isHead)
    (derives : Derives expression (word :: more) result) :
    Derives expression (word :: other) (result.map fun found => (found.1, other)) := by
  generalize same : word :: more = words at derives
  induction derives with
  | text =>
      cases same
      exact .text
  | textFails differs =>
      subst same
      exact .textFails differs
  | leaf leaf reads =>
      cases same
      exact .leaf leaf reads
  | leafFails leaf none =>
      subst same
      exact .leafFails leaf none
  | @rule name _ _ _ inner body ih =>
      simp only [Expression.isHead, inner, Bool.false_or] at heads
      refine .rule inner (ih ?_ same)
      cases symbol : (flow.rules name).body with
      | text => rfl
      | _ => simp [symbol] at heads
  | @ruleFails name _ inner body ih =>
      simp only [Expression.isHead, inner, Bool.false_or] at heads
      refine .ruleFails inner (ih ?_ same)
      cases symbol : (flow.rules name).body with
      | text => rfl
      | _ => simp [symbol] at heads
  | choice _ ih => exact .choice (ih (Bool.and_eq_true_iff.mp heads).1 same)
  | choiceElse _ _ first second =>
      obtain ⟨left, right⟩ := Bool.and_eq_true_iff.mp heads
      exact .choiceElse (first left same) (second right same)
  | _ => cases heads

/-! ## Paths and calls -/

/-- A further segment of a path. -/
def segment : Expression Rule := .sequence (.text ['.']) (.rule .identifier)

theorem segments_firm (derives : Derives (.many segment) words (some (sketches, rest))) :
    ∃ used, words = used ++ rest ∧ ∀ other, other.head? ≠ some ['.'] →
      Derives (.many segment) (used ++ other) (some (sketches, other)) := by
  generalize rounds : Expression.many segment = expression at derives
  generalize result : some (sketches, rest) = outcome at derives
  induction derives generalizing sketches rest with
  | many round _ _ ih =>
      cases rounds
      cases result
      obtain ⟨_, _, _, rfl, point, name⟩ := derives_sequence_iff.mp round
      obtain ⟨rfl, rfl⟩ := derives_text_iff.mp point
      obtain ⟨word, rfl, -, nameOthers⟩ := name.leaf_word rfl
      obtain ⟨used, rfl, others⟩ := ih rfl rfl
      exact ⟨['.'] :: word :: used, rfl,
        fun other ends => .many (.sequence .text (nameOthers _)) (others other ends)⟩
  | manyEnds =>
      cases rounds
      cases result
      exact ⟨[], rfl, fun other ends => .manyEnds (.sequenceFails (.textFails ends))⟩
  | _ => cases rounds

/-- A path goes on behind a point only. -/
theorem path_firm (derives : Derives (.rule .identifierPath) words (some (sketches, rest))) :
    ∃ used, words = used ++ rest ∧ ∀ other, other.head? ≠ some ['.'] →
      Derives (.rule .identifierPath) (used ++ other) (some (sketches, other)) := by
  obtain ⟨_, rfl, body⟩ := (derives_rule_iff rfl).mp derives
  obtain ⟨_, _, _, rfl, first, more⟩ := derives_sequence_iff.mp body
  obtain ⟨word, rfl, -, firstOthers⟩ := first.leaf_word rfl
  obtain ⟨used, rfl, others⟩ := segments_firm more
  exact ⟨word :: used, rfl,
    fun other ends => .rule rfl (.sequence (firstOthers _) (others other ends))⟩

/-- A rule in brackets ends with its closing bracket. -/
theorem rule_firm {name : Rule} {opening closing : String} {body : Expression Rule}
    (inner : name.isLeaf = false) (isList : (flow.rules name).body =
      .sequence (.text opening.toList) (.sequence body (.text closing.toList)))
    (balanced : body.bracketsBehind 0 = some 0)
    (closes : bracketsBehind 0 closing.toList = none)
    (derives : Derives (.rule name) words (some (sketches, rest))) :
    ∃ used, words = opening.toList :: used ++ rest ∧
      ∀ other, Derives (.rule name) (opening.toList :: used ++ other) (some (sketches, other)) := by
  obtain ⟨_, rfl, whole⟩ := (derives_rule_iff inner).mp derives
  rw [isList] at whole
  obtain ⟨inside, rfl, -, others⟩ := bracketed_firm balanced closes whole
  exact ⟨inside ++ [closing.toList], rfl, fun other => .rule inner (isList ▸ others other)⟩

/-- A call ends with its arguments. -/
theorem call_firm (derives : Derives (.rule .functionCall) words (some (sketches, rest))) :
    ∃ used, words = used ++ rest ∧
      ∀ other, Derives (.rule .functionCall) (used ++ other) (some (sketches, other)) := by
  obtain ⟨_, rfl, body⟩ := (derives_rule_iff rfl).mp derives
  obtain ⟨_, _, _, rfl, path, arguments⟩ := derives_sequence_iff.mp body
  obtain ⟨inside, rfl, argumentsOthers⟩ :=
    rule_firm rfl rfl (by decide) (by decide) arguments
  obtain ⟨used, rfl, pathOthers⟩ := path_firm path
  refine ⟨used ++ "(".toList :: inside, by simp, fun other => ?_⟩
  rw [List.append_assoc]
  exact .rule rfl (.sequence (pathOthers _ (of_decide_eq_true rfl)) (argumentsOthers other))

/-! ## Operands -/

/-- An expression between parentheses. -/
def group : Expression Rule :=
  sequenceOf [Expression.word "(", .rule .expression, Expression.word ")"]

/-- Everything that an operand can be, apart from what `await` and `try` start. -/
def plainPrimary : Expression Rule :=
  choiceOf [.rule .literal, .rule .functionCall, .rule .identifierPath, .rule .array,
    .rule .dictionary, group]

theorem primary_body : (flow.rules .primary).body =
    .choice (.rule .awaitExpression) (.choice (.rule .tryExpression) plainPrimary) := rfl

theorem derives_choice_iff {first second : Expression Rule}
    {outcome : List Sketch × List Text} :
    Derives (.choice first second) words (some outcome) ↔
      Derives first words (some outcome) ∨
        Derives first words none ∧ Derives second words (some outcome) := by
  constructor
  · intro derives
    cases derives with
    | choice left => exact .inl left
    | choiceElse left right => exact .inr ⟨left, right⟩
  · rintro (left | ⟨left, right⟩)
    · exact .choice left
    · exact .choiceElse left right

/-- An expression that cannot be empty matches no row without words. -/
theorem Derives.exists_cons {expression : Expression Rule}
    (derives : Derives expression words (some (sketches, rest)))
    (consumes : expression.mayBeEmpty flowHeights = false) :
    ∃ word more, words = word :: more := by
  obtain ⟨used, rfl, spells⟩ := derives.spells
  obtain ⟨word, more, rfl⟩ := List.exists_cons_of_ne_nil (spells.nonempty consumes)
  exact ⟨word, more ++ rest, rfl⟩

/-- A dictionary, or else an expression between parentheses, ends with its parenthesis. -/
theorem parenthesised_firm
    (derives : Derives (.choice (.rule .dictionary) group) words (some (sketches, rest))) :
    ∃ used, words = ['('] :: used ++ rest ∧ ∀ other,
      Derives (.choice (.rule .dictionary) group) (['('] :: used ++ other)
        (some (sketches, other)) := by
  rcases derives_choice_iff.mp derives with dictionary | ⟨fails, grouped⟩
  · obtain ⟨used, rfl, others⟩ := rule_firm rfl rfl (by decide) (by decide) dictionary
    exact ⟨used, rfl, fun other => .choice (others other)⟩
  · obtain ⟨inside, rfl, overcloses, others⟩ :=
      bracketed_firm (by decide) (by decide) grouped
    refine ⟨inside ++ [[')']], rfl, fun other => .choiceElse ?_ (others other)⟩
    -- What is between the parentheses is no dictionary, whatever comes behind them.
    cases fails with
    | leafFails leaf => cases leaf
    | ruleFails _ body =>
        exact .ruleFails rfl (bracketed_fails (by decide) overcloses body other)

theorem plainPrimary_firm (derives : Derives plainPrimary words (some (sketches, [])))
    {after : List Text} (ends : EndsOperand after) :
    Derives plainPrimary (words ++ after) (some (sketches, after)) := by
  obtain ⟨word, more, same⟩ := derives.exists_cons (by decide)
  have noLiteral : Derives (.rule .literal) words none →
      Derives (.rule .literal) (words ++ after) none := by
    subst same
    exact fun fails => fails.head_only rfl
  rcases derives_choice_iff.mp derives with literal | ⟨literalFails, derives⟩
  · obtain ⟨word, rfl, -, others⟩ := literal.leaf_word rfl
    exact .choice (others after)
  apply Derives.choiceElse (noLiteral literalFails)
  rcases derives_choice_iff.mp derives with call | ⟨callFails, derives⟩
  · obtain ⟨used, rfl, others⟩ := call_firm call
    rw [List.append_nil]
    exact .choice (others after)
  rcases derives_choice_iff.mp derives with path | ⟨pathFails, derives⟩
  · obtain ⟨used, rfl, others⟩ := path_firm path
    have reads := others after ends.point
    have noArguments : Derives (.rule .arguments) after none :=
      .ruleFails rfl (.sequenceFails (.textFails ends.parenthesis))
    rw [List.append_nil]
    exact .choiceElse (.ruleFails rfl (.sequenceBreaks reads noArguments)) (.choice reads)
  -- What is left starts with a bracket, and a bracket starts no path.
  rcases derives_choice_iff.mp derives with array | ⟨arrayFails, derives⟩
  · obtain ⟨used, rfl, others⟩ := rule_firm rfl rfl (by decide) (by decide) array
    rw [List.append_nil]
    exact .choiceElse (refuses_word (by decide) _)
      (.choiceElse (refuses_word (by decide) _) (.choice (others after)))
  · obtain ⟨used, rfl, others⟩ := parenthesised_firm derives
    rw [List.append_nil]
    exact .choiceElse (refuses_word (by decide) _)
      (.choiceElse (refuses_word (by decide) _)
        (.choiceElse (refuses_word (by decide) _) (others after)))

/-- A rule that starts with a keyword does not match where another word comes. -/
theorem keyword_rule_fails {kind : Keyword} {second : Expression Rule} {name : Rule}
    (inner : name.isLeaf = false)
    (starts : (flow.rules name).body = .sequence (.rule (.keyword kind)) second)
    (other : words.head? ≠ some kind.spelling.toList) : Derives (.rule name) words none := by
  apply Derives.ruleFails inner
  rw [starts]
  exact .sequenceFails (keyword_fails other)

/-- The rules of the nodes that an operand may be, if neither `await` nor `try` starts it. -/
def operandForms : List Rule :=
  [.literal, .functionCall, .identifierPath, .array, .dictionary, .expression]

theorem primary_firm {form : Rule} {content : Text} {inside : List Sketch}
    (derives : Derives (.rule .primary) words
      (some ([.node .primary [] [.node form content inside]], [])))
    (member : form ∈ operandForms) {after : List Text} (ends : EndsOperand after) :
    Derives (.rule .primary) (words ++ after)
      (some ([.node .primary [] [.node form content inside]], after)) := by
  obtain ⟨_, same, body⟩ := (derives_rule_iff rfl).mp derives
  cases same
  rw [primary_body] at body
  have plain : Derives plainPrimary words (some ([.node form content inside], [])) := by
    rcases derives_choice_iff.mp body with awaits | ⟨-, body⟩
    · obtain ⟨_, same, -⟩ := (derives_rule_iff rfl).mp awaits
      cases same
      exact absurd member (by decide)
    rcases derives_choice_iff.mp body with tries | ⟨-, plain⟩
    · obtain ⟨_, same, -⟩ := (derives_rule_iff rfl).mp tries
      cases same
      exact absurd member (by decide)
    · exact plain
  obtain ⟨word, more, rfl⟩ := plain.exists_cons (by decide)
  have other : ∀ kind : Keyword,
      plainPrimary.fate (wordBars kind.spelling.toList) = .refuses →
      (word :: more ++ after).head? ≠ some kind.spelling.toList := by
    rintro kind refuses ⟨⟩
    cases plain.unique (refuses_word refuses more)
  apply Derives.rule rfl
  rw [primary_body]
  exact .choiceElse (keyword_rule_fails rfl rfl (other .awaitWord (by decide)))
    (.choiceElse (keyword_rule_fails rfl rfl (other .tryWord (by decide)))
      (plainPrimary_firm plain ends))

/-- The operators that an operand may start with. -/
def signs : Expression Rule :=
  choiceOf [.rule (.unaryOperator .plus), .rule (.unaryOperator .minus),
    .rule (.unaryOperator .not)]

/-- The node of an operand, perhaps with an operator before it. -/
inductive IsOperand : Sketch → Prop where
  | intro (before : List Sketch) (form : Rule) (content : Text) (inside : List Sketch) :
      form ∈ operandForms →
      IsOperand (.node .unary [] (before ++ [.node .primary [] [.node form content inside]]))

/-- The operator before an operand is one word. -/
theorem sign_firm {middle : List Text}
    (derives : Derives (.optional signs) words (some (sketches, middle))) (goes : words ≠ [])
    (after : List Text) :
    Derives (.optional signs) (words ++ after) (some (sketches, middle ++ after)) := by
  obtain ⟨word, more, rfl⟩ := List.exists_cons_of_ne_nil goes
  cases derives with
  | optional sign =>
      have here : Derives signs (word :: more) (some (sketches, more)) := sign.head_only rfl
      cases sign.unique here
      exact .optional (sign.head_only rfl)
  | optionalSkips fails => exact .optionalSkips (fails.head_only rfl)

/-- An operand stays the same one before everything that does not go on with it. -/
theorem operand_firm {operand : Sketch}
    (derives : Derives (.rule .unary) words (some ([operand], []))) (isOperand : IsOperand operand)
    {after : List Text} (ends : EndsOperand after) :
    Derives (.rule .unary) (words ++ after) (some ([operand], after)) := by
  obtain ⟨before, form, content, inside, member⟩ := isOperand
  obtain ⟨_, same, body⟩ := (derives_rule_iff rfl).mp derives
  obtain ⟨left, right, middle, rfl, sign, primary⟩ := derives_sequence_iff.mp body
  have split : before ++ [.node .primary [] [.node form content inside]] = left ++ right := by
    simpa [Rule.wrap, flow, Rule.definition, Rule.spacedRule] using same
  obtain ⟨found, rfl, -⟩ := (derives_rule_iff rfl).mp primary
  obtain ⟨rfl, last⟩ := List.append_inj' split rfl
  rw [← last] at primary
  have firm := primary_firm primary member ends
  obtain ⟨word, more, rfl⟩ := derives.exists_cons (by decide)
  exact .rule rfl (.sequence (sign_firm sign (List.cons_ne_nil _ _) after) firm)

end FlowScript.Grammar
