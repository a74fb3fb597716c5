import FlowScript.Proofs.Grammar.Termination

/-!
# The shape of parse trees

`Leaves` lists the rules of the nodes that a match of an expression can leave. A tree is
shaped when the nodes inside each of its nodes are such a list for the rule's body. All
trees that the grammar makes are shaped.
-/

set_option autoImplicit false

namespace FlowScript.Grammar

open Expression hiding rule

/-- The rules of the nodes that a match of the expression leaves. -/
inductive Leaves : Expression Rule → List Rule → Prop where
  | empty : Leaves .empty []
  | text {chars : List Char} : Leaves (.text chars) []
  | oneOf {accepts : Char → Bool} : Leaves (.oneOf accepts) []
  | endOfInput : Leaves .endOfInput []
  | captured {name : Rule} : (flow.rules name).captured → Leaves (.rule name) [name]
  | uncaptured {name : Rule} : (flow.rules name).captured = false → Leaves (.rule name) []
  | sequence {first second : Expression Rule} {left right : List Rule} :
      Leaves first left → Leaves second right → Leaves (.sequence first second) (left ++ right)
  | choice {first second : Expression Rule} {rules : List Rule} :
      Leaves first rules → Leaves (.choice first second) rules
  | choiceElse {first second : Expression Rule} {rules : List Rule} :
      Leaves second rules → Leaves (.choice first second) rules
  | optional {body : Expression Rule} {rules : List Rule} :
      Leaves body rules → Leaves (.optional body) rules
  | optionalSkips {body : Expression Rule} : Leaves (.optional body) []
  | many {body : Expression Rule} {left right : List Rule} :
      Leaves body left → Leaves (.many body) right → Leaves (.many body) (left ++ right)
  | manyEnds {body : Expression Rule} : Leaves (.many body) []
  | manyMore {body : Expression Rule} {rules : List Rule} :
      Leaves (.many body) rules → Leaves (.manyMore body) rules
  | absent {body : Expression Rule} : Leaves (.absent body) []

section

variable {first second body : Expression Rule} {rules : List Rule}

@[simp] theorem leaves_text_iff {chars : List Char} :
    Leaves (.text chars) rules ↔ rules = [] := by
  constructor
  · intro leaves
    cases leaves
    rfl
  · intro none
    subst none
    exact .text

@[simp] theorem leaves_sequence_iff :
    Leaves (.sequence first second) rules ↔
      ∃ left right, rules = left ++ right ∧ Leaves first left ∧ Leaves second right := by
  constructor
  · intro leaves
    cases leaves with
    | sequence left right => exact ⟨_, _, rfl, left, right⟩
  · intro parts
    obtain ⟨left, right, rfl, leftLeaves, rightLeaves⟩ := parts
    exact .sequence leftLeaves rightLeaves

/-- A repetition leaves what its rounds leave. -/
theorem leaves_many_all {allowed : List Rule → Prop}
    (append : ∀ left right, allowed left → allowed right → allowed (left ++ right))
    (none : allowed []) (round : ∀ rules, Leaves body rules → allowed rules)
    (leaves : Leaves (.many body) rules) : allowed rules := by
  generalize same : Expression.many body = expression at leaves
  induction leaves with
  | many first _ _ ih =>
      cases same
      exact append _ _ (round _ first) (ih rfl)
  | manyEnds =>
      cases same
      exact none
  | _ => cases same

end

/-- Holds for expressions in which no rule leaves a node, whatever is around them. -/
def Expression.isBare : Expression Rule → Bool
  | .rule name => !(flow.rules name).captured && (flow.rules name).mode.isNone
  | .sequence first second | .choice first second => first.isBare && second.isBare
  | .optional body | .many body | .manyMore body => body.isBare
  | _ => true

theorem Leaves.eq_nil {expression : Expression Rule} {rules : List Rule}
    (leaves : Leaves expression rules) (bare : expression.isBare) : rules = [] := by
  induction leaves with
  | empty | text | oneOf | endOfInput | uncaptured | optionalSkips | manyEnds | absent => rfl
  | captured captured => simp [Expression.isBare, captured] at bare
  | sequence _ _ first second =>
      obtain ⟨left, right⟩ := Bool.and_eq_true_iff.mp bare
      rw [first left, second right, List.append_nil]
  | choice _ ih => exact ih (Bool.and_eq_true_iff.mp bare).1
  | choiceElse _ ih => exact ih (Bool.and_eq_true_iff.mp bare).2
  | optional _ ih | manyMore _ ih => exact ih bare
  | many _ _ first rest => rw [first bare, rest bare, List.append_nil]

/-- The rules that a match can leave, one list for each way through the expression. An
expression that repeats a part has no bound on its ways. -/
def Expression.leavings : Expression Rule → Option (List (List Rule))
  | .rule name => some [if (flow.rules name).captured then [name] else []]
  | .sequence first second => do
      let left ← first.leavings
      let right ← second.leavings
      pure (left.flatMap fun rules => right.map (rules ++ ·))
  | .choice first second => do
      let left ← first.leavings
      let right ← second.leavings
      pure (left ++ right)
  | .optional body => body.leavings.map ([] :: ·)
  | .many _ | .manyMore _ => none
  | _ => some [[]]

theorem Leaves.mem_leavings {expression : Expression Rule} {rules : List Rule}
    {ways : List (List Rule)} (leaves : Leaves expression rules)
    (all : expression.leavings = some ways) : rules ∈ ways := by
  induction leaves generalizing ways with
  | empty | text | oneOf | endOfInput | absent =>
      cases all
      exact List.mem_singleton.mpr rfl
  | captured captured =>
      cases all
      simp [captured]
  | uncaptured uncaptured =>
      cases all
      simp [uncaptured]
  | sequence _ _ first second =>
      obtain ⟨left, leftAll, all⟩ := Option.bind_eq_some_iff.mp all
      obtain ⟨right, rightAll, all⟩ := Option.bind_eq_some_iff.mp all
      cases all
      exact List.mem_flatMap.mpr ⟨_, first leftAll, List.mem_map.mpr ⟨_, second rightAll, rfl⟩⟩
  | choice _ ih =>
      obtain ⟨left, leftAll, all⟩ := Option.bind_eq_some_iff.mp all
      obtain ⟨right, -, all⟩ := Option.bind_eq_some_iff.mp all
      cases all
      exact List.mem_append_left _ (ih leftAll)
  | choiceElse _ ih =>
      obtain ⟨left, -, all⟩ := Option.bind_eq_some_iff.mp all
      obtain ⟨right, rightAll, all⟩ := Option.bind_eq_some_iff.mp all
      cases all
      exact List.mem_append_right _ (ih rightAll)
  | optional _ ih =>
      obtain ⟨inside, insideAll, rfl⟩ := Option.map_eq_some_iff.mp all
      exact List.mem_cons_of_mem _ (ih insideAll)
  | optionalSkips =>
      obtain ⟨inside, -, rfl⟩ := Option.map_eq_some_iff.mp all
      exact List.mem_cons_self
  | many | manyEnds | manyMore => cases all

/-- Tokens, and rules that leave no node, have nothing inside that leaves one. -/
theorem body_isBare {name : Rule}
    (inner : (flow.rules name).captured = false ∨ (flow.rules name).mode = some .sealed) :
    (flow.rules name).body.isBare := by
  have checked : ∀ name : Rule, ((flow.rules name).captured &&
      (flow.rules name).mode != some .sealed) || (flow.rules name).body.isBare :=
    Rule.forall_of_all (by decide)
  have either := checked name
  rcases inner with uncaptured | sealed
  · simpa [uncaptured] using either
  · simpa [sealed] using either

/-! ## Shaped trees -/

/-- The rules of the nodes inside a node. -/
def Rule.Leaves (name : Rule) (rules : List Rule) : Prop :=
  if (flow.rules name).mode = some .sealed then rules = []
  else Grammar.Leaves (flow.rules name).body rules

theorem Rule.Leaves.mem_ways {name : Rule} {rules : List Rule} {ways : List (List Rule)}
    (leaves : name.Leaves rules) (unsealed : (flow.rules name).mode ≠ some .sealed)
    (all : (flow.rules name).body.leavings = some ways) : rules ∈ ways := by
  unfold Rule.Leaves at leaves
  rw [if_neg unsealed] at leaves
  exact leaves.mem_leavings all

inductive Node.Shaped : Node Rule → Prop where
  | node {name : Rule} {start stop : Nat} {children : List (Node Rule)} :
      name.Leaves (children.map Node.rule) → (∀ child ∈ children, Shaped child) →
      Shaped (.node name start stop children)

/-- A match leaves shaped nodes, and those the expression can leave. -/
structure Match.Shaped (found : Match Rule) (expression : Expression Rule) : Prop where
  leaves : Leaves expression (found.nodes.map Node.rule)
  nodes : ∀ node ∈ found.nodes, node.Shaped

namespace Match.Shaped

variable {expression first second : Expression Rule} {mode : Mode} {found : Match Rule}

theorem none (bare : found.nodes = []) (leaves : Leaves expression []) :
    found.Shaped expression := by
  constructor
  · simpa [bare] using leaves
  · simp [bare]

theorem append {left right : Match Rule} (leftShaped : left.Shaped first)
    (rightShaped : right.Shaped second)
    (joined : ∀ left right, Leaves first left → Leaves second right →
      Leaves expression (left ++ right)) : (left.append right).Shaped expression := by
  constructor
  · simp only [Match.append, List.map_append]
    exact joined _ _ leftShaped.leaves rightShaped.leaves
  · intro node member
    rcases List.mem_append.mp member with inLeft | inRight
    · exact leftShaped.nodes node inLeft
    · exact rightShaped.nodes node inRight

theorem imp (shaped : found.Shaped first)
    (implies : ∀ rules, Leaves first rules → Leaves second rules) : found.Shaped second :=
  ⟨implies _ shaped.leaves, shaped.nodes⟩

theorem nodes_eq_nil (shaped : found.Shaped expression) (bare : expression.isBare) :
    found.nodes = [] :=
  List.map_eq_nil_iff.mp (shaped.leaves.eq_nil bare)

/-- A rule leaves a node with the nodes of its body inside, or no node at all. -/
theorem close {name : Rule} {cursor : Cursor} (shaped : found.Shaped (flow.rules name).body)
    (visible : mode ≠ .sealed ∨ (flow.rules name).captured = false) :
    (found.close name (flow.rules name) mode cursor).Shaped (.rule name) := by
  cases captured : (flow.rules name).captured with
  | false =>
      have inside := shaped.nodes_eq_nil (body_isBare (.inl captured))
      apply none
      · simp [Match.close, captured, inside]
      · exact .uncaptured captured
  | true =>
      have notSealed : mode ≠ .sealed := by simpa [captured] using visible
      have inside : name.Leaves (found.nodes.map Node.rule) := by
        unfold Rule.Leaves
        split
        · next sealed => simp [shaped.nodes_eq_nil (body_isBare (.inr sealed))]
        · exact shaped.leaves
      have whole : (found.close name (flow.rules name) mode cursor).nodes =
          [.node name cursor.offset found.cursor.offset found.nodes] := by
        simp [Match.close, notSealed, captured]
      constructor
      · rw [whole]
        exact .captured captured
      · intro node member
        rw [whole, List.mem_singleton] at member
        subst member
        exact .node inside shaped.nodes

end Match.Shaped

/-- Outside of tokens, whatever is matched leaves shaped trees. -/
theorem Yields.shaped {expression : Expression Rule} {mode : Mode} {cursor : Cursor}
    {result : Option (Match Rule)} (yields : flow.Yields expression mode cursor result)
    (readable : mode ≠ .sealed ∨ expression.isBare) :
    ∀ found, result = some found → found.Shaped expression := by
  induction yields with
  | empty =>
      rintro found ⟨⟩
      exact .none rfl .empty
  | text =>
      rintro found ⟨⟩
      exact .none rfl .text
  | oneOf =>
      rintro found ⟨⟩
      exact .none rfl .oneOf
  | endOfInput =>
      rintro found ⟨⟩
      exact .none rfl .endOfInput
  | absent =>
      rintro found ⟨⟩
      exact .none rfl .absent
  | @rule name mode _ body _ ih =>
      rintro found ⟨⟩
      have visible : mode ≠ .sealed ∨ (flow.rules name).captured = false := by
        rcases readable with visible | bare
        · exact .inl visible
        · simp only [Expression.isBare, Bool.and_eq_true, Bool.not_eq_true'] at bare
          exact .inr bare.1
      have inner : (flow.rules name).mode.getD mode ≠ .sealed ∨
          (flow.rules name).body.isBare := by
        by_cases sealed : (flow.rules name).mode = some .sealed
        · exact .inr (body_isBare (.inr sealed))
        · rcases visible with visible | uncaptured
          · apply Or.inl
            cases given : (flow.rules name).mode with
            | none => exact visible
            | some other =>
                rw [given] at sealed
                exact fun same => sealed (congrArg some same)
          · exact .inr (body_isBare (.inl uncaptured))
      exact (ih inner body rfl).close visible
  | sequence _ _ _ first _ second =>
      rintro found ⟨⟩
      have parts := readable.imp_right Bool.and_eq_true_iff.mp
      exact (first (parts.imp_right And.left) _ rfl).append
        (second (parts.imp_right And.right) _ rfl) fun _ _ => .sequence
  | choice _ ih =>
      rintro found ⟨⟩
      exact (ih (readable.imp_right fun bare => (Bool.and_eq_true_iff.mp bare).1) _ rfl).imp
        fun _ => .choice
  | choiceElse _ _ _ ih =>
      intro found same
      exact (ih (readable.imp_right fun bare => (Bool.and_eq_true_iff.mp bare).2) _ same).imp
        fun _ => .choiceElse
  | optional _ ih =>
      rintro found ⟨⟩
      exact (ih readable _ rfl).imp fun _ => .optional
  | optionalSkips =>
      rintro found ⟨⟩
      exact .none rfl .optionalSkips
  | many _ _ first rest =>
      rintro found ⟨⟩
      apply (first readable _ rfl).append (rest readable _ rfl)
      intro left right round more
      cases more with
      | manyMore more => exact .many round more
  | manyEnds =>
      rintro found ⟨⟩
      exact .none rfl .manyEnds
  | manyMore _ _ _ _ first rest =>
      rintro found ⟨⟩
      apply (first readable _ rfl).append (rest readable _ rfl)
      intro left right round more
      cases more with
      | manyMore more => exact .manyMore (.many round more)
  | manyMoreEnds =>
      rintro found ⟨⟩
      exact .none rfl (.manyMore .manyEnds)
  | textFails | oneOfFails | endOfInputFails | ruleFails | sequenceFails | sequenceBreaks
  | absentFails => nofun

end FlowScript.Grammar
