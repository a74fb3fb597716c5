import FlowScript.Proofs.Grammar.Shape

/-!
# The children of a node

Which nodes a node has inside of it, for the rules that repeat a part. The ways through
all other rules can be listed. The rules that no literal can be inside of are told apart
from the others.
-/

set_option autoImplicit false

namespace FlowScript.Grammar

open Expression hiding rule

variable {rules : List Rule} {name item : Rule} {body expression : Expression Rule}

/-- Rules of nodes that an expression is read from. -/
def Rule.isExpression : Rule → Bool
  | .expression | .logical | .equality | .relational | .additive | .multiplicative | .unary
  | .primary | .literal | .functionCall | .identifierPath | .array | .dictionary
  | .awaitExpression | .tryExpression => true
  | _ => false

/-- The rules of the levels of precedence. -/
def Rule.isLevel : Rule → Bool
  | .logical | .equality | .relational | .additive | .multiplicative => true
  | _ => false

/-- Rules of nodes that a statement is read from. -/
def Rule.isStatement : Rule → Bool
  | .statement | .importStatement | .delayStatement | .returnStatement | .raiseStatement
  | .breakStatement | .variableDeclaration | .assignment | .expressionStatement | .ifStatement
  | .repeatStatement | .workflowDefinition => true
  | _ => false

/-- Rules of nodes that have no literal inside of them and are none. -/
def Rule.isPlain : Rule → Bool
  | .unaryOperator _ | .binaryOperator _ | .identifier | .identifierPath | .stringTriple
  | .stringTripleContent | .stringSingle | .stringSingleContent | .boolean | .duration
  | .durationCount | .durationUnit | .real | .integer | .signature | .parameter
  | .returnType => true
  | _ => false

/-! ## Repetitions -/

/-- Every round of a repetition leaves the same node. -/
theorem leaves_many_only (ways : body.leavings = some [[item]])
    (leaves : Leaves (.many body) rules) : ∀ rule ∈ rules, rule = item := by
  let only : List Rule → Prop := fun rules => ∀ rule ∈ rules, rule = item
  have round : ∀ rules, Leaves body rules → only rules := by
    intro rules round
    rw [List.mem_singleton.mp (round.mem_leavings ways)]
    exact List.forall_mem_singleton.mpr rfl
  have append : ∀ left right, only left → only right → only (left ++ right) :=
    fun left right first second => List.forall_mem_append.mpr ⟨first, second⟩
  exact leaves_many_all append nofun round leaves

theorem leaves_listBetween {opening closing : String} (captured : (flow.rules item).captured)
    (leaves : Leaves (Rule.listBetween opening item closing) rules) :
    ∀ rule ∈ rules, rule = item := by
  have one : (Expression.rule item).leavings = some [[item]] := by
    simp [leavings, captured]
  have after : (Expression.sequence (word ",") (.rule item)).leavings = some [[item]] := by
    simp [leavings, word, captured]
  obtain ⟨left, inside, rfl, opens, parts⟩ := leaves_sequence_iff.mp leaves
  obtain ⟨items, right, rfl, listed, closes⟩ := leaves_sequence_iff.mp parts
  rw [leaves_text_iff.mp opens, leaves_text_iff.mp closes, List.nil_append, List.append_nil]
  cases listed with
  | optionalSkips => nofun
  | optional listed =>
      obtain ⟨first, others, rfl, single, more⟩ := leaves_sequence_iff.mp listed
      rw [List.mem_singleton.mp (single.mem_leavings one)]
      exact List.forall_mem_append.mpr
        ⟨List.forall_mem_singleton.mpr rfl, leaves_many_only after more⟩

/-- Operators and operands by turns. -/
inductive Operations : List Rule → Prop where
  | nil : Operations []
  | cons {op : BinaryOperator} {operand : Rule} {rest : List Rule} :
      operand.isExpression → Operations rest → Operations (.binaryOperator op :: operand :: rest)

theorem Operations.append {left right : List Rule} (first : Operations left)
    (second : Operations right) : Operations (left ++ right) := by
  induction first with
  | nil => exact second
  | cons operand _ ih => exact .cons operand ih

theorem leaves_level {operand : Rule} {operators : List BinaryOperator}
    (captured : (flow.rules operand).captured) (isExpression : operand.isExpression)
    (ways : (Expression.sequence
        (choiceOf (operators.map fun op => Expression.rule (.binaryOperator op)))
        (.rule operand)).leavings = some (operators.map fun op => [.binaryOperator op, operand]))
    (leaves : Leaves (Rule.level operand operators) rules) :
    ∃ rest, rules = operand :: rest ∧ Operations rest := by
  have one : (Expression.rule operand).leavings = some [[operand]] := by
    simp [leavings, captured]
  obtain ⟨first, rest, rfl, single, more⟩ := leaves_sequence_iff.mp leaves
  rw [List.mem_singleton.mp (single.mem_leavings one)]
  refine ⟨rest, rfl, ?_⟩
  apply leaves_many_all (fun _ _ => Operations.append) .nil _ more
  intro rules round
  obtain ⟨op, -, rfl⟩ := List.mem_map.mp (round.mem_leavings ways)
  exact .cons isExpression .nil

namespace Rule.Leaves

theorem level (leaves : name.Leaves rules) (isLevel : name.isLevel) :
    ∃ operand rest, rules = operand :: rest ∧ operand.isExpression ∧ Operations rest := by
  cases name with
  | logical | equality | relational | additive | multiplicative =>
      obtain ⟨rest, same, operations⟩ := leaves_level rfl rfl rfl leaves
      exact ⟨_, rest, same, rfl, operations⟩
  | _ => cases isLevel

theorem identifierPath (leaves : Rule.identifierPath.Leaves rules) :
    rules ≠ [] ∧ ∀ rule ∈ rules, rule = .identifier := by
  obtain ⟨first, rest, rfl, single, more⟩ := leaves_sequence_iff.mp leaves
  rw [List.mem_singleton.mp (single.mem_leavings rfl)]
  exact ⟨List.cons_ne_nil _ _, List.forall_mem_append.mpr
    ⟨List.forall_mem_singleton.mpr rfl, leaves_many_only rfl more⟩⟩

theorem arguments (leaves : Rule.arguments.Leaves rules) : ∀ rule ∈ rules, rule = .argument :=
  leaves_listBetween rfl leaves

theorem array (leaves : Rule.array.Leaves rules) : ∀ rule ∈ rules, rule = .expression :=
  leaves_listBetween rfl leaves

theorem dictionary (leaves : Rule.dictionary.Leaves rules) :
    ∀ rule ∈ rules, rule = .dictionaryEntry :=
  leaves_listBetween rfl leaves

theorem primary (leaves : Rule.primary.Leaves rules) :
    ∃ rule : Rule, rules = [rule] ∧ rule.isExpression := by
  have ways : rules ∈ [[Rule.awaitExpression], [.tryExpression], [.literal], [.functionCall],
      [.identifierPath], [.array], [.dictionary], [.expression]] := leaves.mem_ways nofun rfl
  simp only [List.mem_cons, List.not_mem_nil, or_false] at ways
  rcases ways with rfl | rfl | rfl | rfl | rfl | rfl | rfl | rfl <;> exact ⟨_, rfl, rfl⟩

/-- What a literal is made of is plain. -/
theorem literal (leaves : Rule.literal.Leaves rules) :
    ∃ rule : Rule, rules = [rule] ∧ rule.isPlain := by
  have ways : rules ∈ [[Rule.stringTriple], [.stringSingle], [.boolean], [.duration], [.real],
      [.integer]] := leaves.mem_ways nofun rfl
  simp only [List.mem_cons, List.not_mem_nil, or_false] at ways
  rcases ways with rfl | rfl | rfl | rfl | rfl | rfl <;> exact ⟨_, rfl, rfl⟩

/-- An operand, perhaps with an operator before it. -/
theorem unary (leaves : Rule.unary.Leaves rules) :
    rules = [.primary] ∨ ∃ op, rules = [.unaryOperator op, .primary] := by
  have ways : rules ∈ [[Rule.primary], [.unaryOperator .plus, .primary],
      [.unaryOperator .minus, .primary], [.unaryOperator .not, .primary]] :=
    leaves.mem_ways nofun rfl
  simp only [List.mem_cons, List.not_mem_nil, or_false] at ways
  rcases ways with rfl | rfl | rfl | rfl
  · exact .inl rfl
  · exact .inr ⟨_, rfl⟩
  · exact .inr ⟨_, rfl⟩
  · exact .inr ⟨_, rfl⟩

theorem statement (leaves : Rule.statement.Leaves rules) :
    ∃ rule : Rule, rules = [rule] ∧ rule.isStatement := by
  have inside : Grammar.Leaves (flow.rules .statement).body rules := leaves
  cases inside with
  | choice compound =>
      obtain ⟨kind, ends, rfl, chosen, terminators⟩ := leaves_sequence_iff.mp compound
      have ways : kind ∈ [[Rule.workflowDefinition], [.ifStatement], [.repeatStatement]] :=
        chosen.mem_leavings rfl
      rw [terminators.eq_nil rfl, List.append_nil]
      simp only [List.mem_cons, List.not_mem_nil, or_false] at ways
      rcases ways with rfl | rfl | rfl <;> exact ⟨_, rfl, rfl⟩
  | choiceElse simple =>
      obtain ⟨kind, ends, rfl, chosen, terminators⟩ := leaves_sequence_iff.mp simple
      have ways : kind ∈ [[Rule.importStatement], [.delayStatement], [.returnStatement],
          [.raiseStatement], [.breakStatement], [.variableDeclaration], [.assignment],
          [.expressionStatement]] := chosen.mem_leavings rfl
      rw [terminators.eq_nil rfl, List.append_nil]
      simp only [List.mem_cons, List.not_mem_nil, or_false] at ways
      rcases ways with rfl | rfl | rfl | rfl | rfl | rfl | rfl | rfl <;> exact ⟨_, rfl, rfl⟩

/-- The statements of a block or a program. -/
theorem statements (leaves : name.Leaves rules) (sequence : name = .block ∨ name = .program) :
    ∀ rule ∈ rules, rule = .statement := by
  rcases sequence with rfl | rfl
  · obtain ⟨left, inside, rfl, opens, parts⟩ := leaves_sequence_iff.mp leaves
    obtain ⟨items, right, rfl, listed, closes⟩ := leaves_sequence_iff.mp parts
    rw [leaves_text_iff.mp opens, leaves_text_iff.mp closes, List.nil_append, List.append_nil]
    exact leaves_many_only rfl listed
  · obtain ⟨left, inside, rfl, begins, parts⟩ := leaves_sequence_iff.mp leaves
    obtain ⟨items, right, rfl, listed, ends⟩ := leaves_sequence_iff.mp parts
    have last : right = [] := List.mem_singleton.mp (ends.mem_leavings rfl)
    rw [List.mem_singleton.mp (begins.mem_leavings rfl), last, List.nil_append, List.append_nil]
    exact leaves_many_only rfl listed

/-- A first branch, further ones, and perhaps a block at the end. -/
theorem ifStatement (leaves : Rule.ifStatement.Leaves rules) :
    ∃ others last, rules = .conditional :: (others ++ last) ∧
      (∀ rule ∈ others, rule = .conditional) ∧ (last = [] ∨ last = [.block]) := by
  obtain ⟨opening, parts, rfl, opens, leaves⟩ := leaves_sequence_iff.mp leaves
  obtain ⟨first, parts, rfl, single, leaves⟩ := leaves_sequence_iff.mp leaves
  obtain ⟨others, last, rfl, more, ends⟩ := leaves_sequence_iff.mp leaves
  rw [List.mem_singleton.mp (opens.mem_leavings rfl),
    List.mem_singleton.mp (single.mem_leavings rfl)]
  refine ⟨others, last, rfl, leaves_many_only rfl more, ?_⟩
  have ways : last ∈ [[], [Rule.block]] := ends.mem_leavings rfl
  simpa using ways

/-- Parameters, and perhaps a type at the end. -/
theorem signature (leaves : Rule.signature.Leaves rules) :
    ∃ parameters last, rules = parameters ++ last ∧
      (∀ rule ∈ parameters, rule = .parameter) ∧ (last = [] ∨ last = [.returnType]) := by
  obtain ⟨parameters, last, rfl, listed, ends⟩ := leaves_sequence_iff.mp leaves
  refine ⟨parameters, last, rfl, leaves_listBetween rfl listed, ?_⟩
  have ways : last ∈ [[], [Rule.returnType]] := ends.mem_leavings rfl
  simpa using ways

end Rule.Leaves

/-! ## Rules without literals -/

/-- The rules that occur in an expression. -/
def Expression.mentions : Expression Rule → List Rule
  | .rule name => [name]
  | .sequence first second | .choice first second => first.mentions ++ second.mentions
  | .optional body | .many body | .manyMore body => body.mentions
  | _ => []

theorem Leaves.mentioned (leaves : Leaves expression rules) :
    ∀ rule ∈ rules, rule ∈ expression.mentions := by
  induction leaves with
  | empty | text | oneOf | endOfInput | uncaptured | optionalSkips | manyEnds | absent => nofun
  | captured => exact List.forall_mem_singleton.mpr (List.mem_singleton.mpr rfl)
  | sequence _ _ first second =>
      intro rule member
      exact List.mem_append.mpr ((List.mem_append.mp member).imp (first rule) (second rule))
  | choice _ ih => exact fun rule member => List.mem_append_left _ (ih rule member)
  | choiceElse _ ih => exact fun rule member => List.mem_append_right _ (ih rule member)
  | optional _ ih | manyMore _ ih => exact ih
  | many _ _ first rest =>
      intro rule member
      exact (List.mem_append.mp member).elim (first rule) (rest rule)

theorem Rule.Leaves.plain (leaves : name.Leaves rules) (plain : name.isPlain) :
    ∀ rule ∈ rules, rule.isPlain := by
  have checked : ∀ name : Rule, !name.isPlain || (flow.rules name).mode == some .sealed ||
      (flow.rules name).body.mentions.all Rule.isPlain :=
    Rule.forall_of_all (by decide)
  unfold Rule.Leaves at leaves
  split at leaves
  · rw [leaves]
    nofun
  · next unsealed =>
      have inside := checked name
      rw [plain, Bool.not_true, Bool.false_or, beq_false_of_ne unsealed, Bool.false_or] at inside
      exact fun rule member => List.all_eq_true.mp inside rule (leaves.mentioned rule member)

end FlowScript.Grammar
