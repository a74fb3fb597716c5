import FlowScript.Proofs.Syntax.Settling.Basic

/-!
# What reading expressions comes to

Expressions are read in the order of their parts, so the first number that does not fit
is the one reported, and the spans of the parts stand one behind the other.
-/

set_option autoImplicit false

namespace FlowScript

open FlowScript.Grammar (Node Rule InOrder Operations)

namespace Ast

variable {source : Text}

/-! ## Parts of expressions -/

section

variable {trees : List Tree} {start stop : Nat} (known : ∀ tree ∈ trees, tree.All (Known source))
  (ordered : InOrder start (trees.map Node.stretch) stop)

include known ordered

theorem readExprs_settles (rules : ∀ tree ∈ trees, tree.rule = .expression) :
    Settles (rangeErrors source trees)
      (fun exprs => Layout.Row source start stop (Expr.layouts exprs)) (readExprs source trees) := by
  induction trees generalizing start with
  | nil => exact .pure (.nil ordered)
  | cons tree rest ih =>
      obtain ⟨here, others⟩ := List.forall_mem_cons.mp known
      obtain ⟨rule, otherRules⟩ := List.forall_mem_cons.mp rules
      obtain ⟨before, -, behind⟩ := ordered
      have isExpression : tree.rule.isExpression := rule ▸ rfl
      rw [rangeErrors_cons]
      apply (here.root.settled.expr isExpression).bind
      intro expr row
      apply (ih others behind otherRules).map
      exact fun exprs rows => (row.widen before (Nat.le_refl _)).cons rows

theorem readArguments_settles (rules : ∀ tree ∈ trees, tree.rule = .argument) :
    Settles (rangeErrors source trees)
      (fun arguments => Layout.Row source start stop (Argument.layouts arguments))
      (readArguments source trees) := by
  induction trees generalizing start with
  | nil => exact .pure (.nil ordered)
  | cons tree rest ih =>
      obtain ⟨here, others⟩ := List.forall_mem_cons.mp known
      obtain ⟨rule, otherRules⟩ := List.forall_mem_cons.mp rules
      obtain ⟨before, -, behind⟩ := ordered
      have sited := here.root.sited
      have inside := sited.stems.ordered
      have children := fun child (member : child ∈ tree.children) => here.child member
      obtain ⟨treeRule, opening, closing, parts⟩ := tree
      obtain rfl : treeRule = .argument := rule
      have ways : parts.map Node.rule ∈ [[.expression], [.identifier, .expression]] :=
        Rule.Leaves.mem_ways sited.fits nofun rfl
      have rows := ih others behind otherRules
      rw [rangeErrors_cons, rangeErrors_node (by decide)]
      simp only [List.mem_cons, List.not_mem_nil, or_false] at ways
      rcases ways with ways | ways
      · obtain ⟨value, rfl, valueRule⟩ := children_one ways
        have valueKnown := children value List.mem_cons_self
        apply (valueKnown.root.settled.expr (valueRule ▸ rfl)).bind
        intro expr row
        apply rows.map
        intro arguments argumentRows
        obtain ⟨from_, -, upTo⟩ := inside
        have argument := (row.widen from_ upTo).other sited.encloses
        exact (argument.widen before (Nat.le_refl _)).cons argumentRows
      · obtain ⟨name, value, rfl, nameRule, valueRule⟩ := children_two ways
        have nameKnown := children name List.mem_cons_self
        have valueKnown := children value (List.mem_cons_of_mem _ List.mem_cons_self)
        rw [rangeErrors_skip (all_sited nameKnown) (nameRule ▸ rfl)]
        apply (valueKnown.root.settled.expr (valueRule ▸ rfl)).bind
        intro expr row
        apply rows.map
        intro arguments argumentRows
        obtain ⟨from_, -, between, -, upTo⟩ := inside
        have named := (readIdentifier_row nameKnown.root.sited).widen from_ (Nat.le_refl _)
        have argument := (named.cons (row.widen between upTo)).other sited.encloses
        exact (argument.widen before (Nat.le_refl _)).cons argumentRows

theorem readEntries_settles (rules : ∀ tree ∈ trees, tree.rule = .dictionaryEntry) :
    Settles (rangeErrors source trees)
      (fun entries => Layout.Row source start stop (Entry.layouts entries))
      (readEntries source trees) := by
  induction trees generalizing start with
  | nil => exact .pure (.nil ordered)
  | cons tree rest ih =>
      obtain ⟨here, others⟩ := List.forall_mem_cons.mp known
      obtain ⟨rule, otherRules⟩ := List.forall_mem_cons.mp rules
      obtain ⟨before, -, behind⟩ := ordered
      have sited := here.root.sited
      have inside := sited.stems.ordered
      have children := fun child (member : child ∈ tree.children) => here.child member
      obtain ⟨treeRule, opening, closing, parts⟩ := tree
      obtain rfl : treeRule = .dictionaryEntry := rule
      have ways : parts.map Node.rule ∈ [[.identifier, .expression]] :=
        Rule.Leaves.mem_ways sited.fits nofun rfl
      obtain ⟨key, value, rfl, keyRule, valueRule⟩ := children_two (List.mem_singleton.mp ways)
      have keyKnown := children key List.mem_cons_self
      have valueKnown := children value (List.mem_cons_of_mem _ List.mem_cons_self)
      rw [rangeErrors_cons, rangeErrors_node (by decide),
        rangeErrors_skip (all_sited keyKnown) (keyRule ▸ rfl)]
      apply (valueKnown.root.settled.expr (valueRule ▸ rfl)).bind
      intro expr row
      apply (ih others behind otherRules).map
      intro entries rows
      obtain ⟨from_, -, between, -, upTo⟩ := inside
      have named := (readIdentifier_row keyKnown.root.sited).widen from_ (Nat.le_refl _)
      have entry := (named.cons (row.widen between upTo)).other sited.encloses
      exact (entry.widen before (Nat.le_refl _)).cons rows

end

/-- An operation spans its operator and its operand. -/
theorem readOperations_settles (first last : Nat) {rules : List Rule} (operations : Operations rules)
    {trees : List Tree} {start stop : Nat} (known : ∀ tree ∈ trees, tree.All (Known source))
    (ordered : InOrder start (trees.map Node.stretch) stop)
    (same : trees.map Node.rule = rules) :
    Settles (rangeErrors source trees)
      (fun operations => Layout.Row source start stop (Operation.layouts operations))
      (readOperations source first last trees) := by
  induction operations generalizing trees start with
  | nil =>
      obtain rfl := List.map_eq_nil_iff.mp same
      exact .pure (.nil ordered)
  | @cons op _ rest isExpression _ ih =>
      obtain ⟨operator, others, rfl, operatorRule, more⟩ := List.map_eq_cons_iff.mp same
      obtain ⟨operand, others, rfl, operandRule, otherRules⟩ := List.map_eq_cons_iff.mp more
      simp only [List.forall_mem_cons] at known
      obtain ⟨operatorKnown, operandKnown, otherKnown⟩ := known
      obtain ⟨before, operatorOrder, between, operandOrder, behind⟩ := ordered
      have encloses := operatorKnown.root.sited.encloses
      rw [rangeErrors_skip (all_sited operatorKnown) (operatorRule ▸ rfl), rangeErrors_cons]
      obtain ⟨treeRule, opening, closing, parts⟩ := operator
      obtain rfl : treeRule = .binaryOperator op := operatorRule
      apply (operandKnown.root.settled.expr (operandRule ▸ isExpression)).bind
      intro expr row
      apply (ih otherKnown behind otherRules).map
      intro operations rows
      have operation := row.operation between encloses
      rw [Expr.span_layout] at operation
      exact (operation.widen before (Nat.le_refl _)).cons rows

/-! ## Expressions -/

theorem chainOf_row {first : Expr} {operations : List Operation} {start stop : Nat}
    (row : Layout.Row source start stop (first.layout :: Operation.layouts operations))
    (encloses : source.Encloses start stop) :
    Layout.Row source start stop [(chainOf first operations (source.span start stop)).layout] := by
  cases operations with
  | nil => exact row
  | cons operation rest =>
      have chained : (chainOf first (operation :: rest) (source.span start stop)).layout =
          .node .chain (source.span start stop)
            (first.layout :: Operation.layouts (operation :: rest)) := rfl
      rw [chained]
      refine row.node encloses nofun ⟨nofun, fun _ => ?_⟩
      obtain ⟨op, operand, span⟩ := operation
      exact Nat.succ_lt_succ (Nat.succ_pos _)

/-- A level is read as a chain, whichever level it is. -/
theorem readExpr_level {level : Rule} (isLevel : level.isLevel) (source : Text) (start stop : Nat)
    (first : Tree) (rest : List Tree) :
    readExpr source (.node level start stop (first :: rest)) = (do
      let first ← readExpr source first
      let operations ← readOperations source start stop rest
      pure (chainOf first operations (source.span start stop))) := by
  cases level <;> first | rfl | cases isLevel

/-- A level without an operator leaves nothing. -/
theorem readExpr_level_single {level : Rule} (isLevel : level.isLevel) (source : Text)
    (start stop : Nat) (operand : Tree) :
    readExpr source (.node level start stop [operand]) = readExpr source operand := by
  rw [readExpr_level isLevel]
  cases readExpr source operand with
  | error => rfl
  | ok expr => rfl

section

variable {rule : Rule} {trees : List Tree} {start stop : Nat}
  (known : ∀ tree ∈ trees, tree.All (Known source)) (sited : Sited source (.node rule start stop trees))

include known sited

theorem readLevel_settles (isLevel : rule.isLevel) :
    Settles (rangeErrors source trees)
      (fun expr => Layout.Row source start stop [expr.layout])
      (readExpr source (.node rule start stop trees)) := by
  obtain ⟨operand, rest, rules, isExpression, operations⟩ := Rule.Leaves.level sited.fits isLevel
  obtain ⟨first, rest, rfl, firstRule, restRules⟩ := List.map_eq_cons_iff.mp rules
  obtain ⟨firstKnown, restKnown⟩ := List.forall_mem_cons.mp known
  obtain ⟨before, -, behind⟩ := sited.stems.ordered
  have restSettles := readOperations_settles start stop operations restKnown behind restRules
  rw [readExpr_level isLevel, rangeErrors_cons]
  apply (firstKnown.root.settled.expr (firstRule ▸ isExpression)).bind
  intro expr row
  apply restSettles.map
  intro operations rows
  exact chainOf_row ((row.widen before (Nat.le_refl _)).cons rows) sited.encloses

omit sited in
/-- The only node inside of another one. -/
theorem only_settles (child : Tree) (only : trees = [child])
    (ordered : InOrder start (trees.map Node.stretch) stop) (isExpression : child.rule.isExpression) :
    Settles (rangeErrors source trees) (fun expr => Layout.Row source start stop [expr.layout])
      (readExpr source child) := by
  subst only
  obtain ⟨before, -, behind⟩ := ordered
  apply ((known child List.mem_cons_self).root.settled.expr isExpression).imp
  exact fun expr row => row.widen before behind

theorem readExpr_settles (isExpression : rule.isExpression) :
    Settles (rangeErrors source [.node rule start stop trees])
      (fun expr => Layout.Row source start stop [expr.layout])
      (readExpr source (.node rule start stop trees)) := by
  have ordered := sited.stems.ordered
  cases rule with
  | expression =>
      rw [rangeErrors_node (by decide)]
      have ways : trees.map Node.rule ∈ [[.logical]] := Rule.Leaves.mem_ways sited.fits nofun rfl
      obtain ⟨child, rfl, childRule⟩ := children_one (List.mem_singleton.mp ways)
      exact only_settles known child rfl ordered (childRule ▸ rfl)
  | primary =>
      rw [rangeErrors_node (by decide)]
      obtain ⟨rule, rules, isExpression⟩ := Rule.Leaves.primary sited.fits
      obtain ⟨child, rfl, childRule⟩ := children_one rules
      exact only_settles known child rfl ordered (childRule ▸ isExpression)
  | logical | equality | relational | additive | multiplicative =>
      rw [rangeErrors_node (by decide)]
      exact readLevel_settles known sited rfl
  | unary =>
      rw [rangeErrors_node (by decide)]
      rcases Rule.Leaves.unary sited.fits with rules | ⟨op, rules⟩
      · obtain ⟨child, rfl, childRule⟩ := children_one rules
        exact only_settles known child rfl ordered (childRule ▸ rfl)
      · obtain ⟨operator, operand, rfl, operatorRule, operandRule⟩ := children_two rules
        simp only [List.forall_mem_cons] at known
        obtain ⟨operatorKnown, operandKnown, -⟩ := known
        rw [rangeErrors_skip (all_sited operatorKnown) (operatorRule ▸ rfl)]
        obtain ⟨before, inside, behind⟩ := ordered
        obtain ⟨treeRule, opening, closing, parts⟩ := operator
        obtain rfl : treeRule = .unaryOperator op := operatorRule
        apply (only_settles (List.forall_mem_singleton.mpr operandKnown) operand rfl behind
          (operandRule ▸ rfl)).map
        intro expr row
        exact (row.widen (Nat.le_trans before inside) (Nat.le_refl _)).other sited.encloses
  | literal =>
      obtain ⟨rule, rules, -⟩ := Rule.Leaves.literal sited.fits
      obtain ⟨child, rfl, -⟩ := children_one rules
      exact readLiteral_settles sited (all_sited (known child List.mem_cons_self))
  | identifierPath =>
      have whole : (Node.node Rule.identifierPath start stop trees).All (Sited source) :=
        .node sited fun child member => all_sited (known child member)
      rw [rangeErrors_plain whole rfl]
      exact (readPath_settles whole rfl).map fun path row => row
  | functionCall =>
      rw [rangeErrors_node (by decide)]
      have ways : trees.map Node.rule ∈ [[.identifierPath, .arguments]] :=
        Rule.Leaves.mem_ways sited.fits nofun rfl
      obtain ⟨callee, passed, rfl, calleeRule, passedRule⟩ :=
        children_two (List.mem_singleton.mp ways)
      simp only [List.forall_mem_cons] at known
      obtain ⟨calleeKnown, passedKnown, -⟩ := known
      have passedSited := passedKnown.root.sited
      obtain ⟨before, -, between, -, behind⟩ := ordered
      obtain ⟨treeRule, opening, closing, arguments⟩ := passed
      obtain rfl : treeRule = .arguments := passedRule
      rw [rangeErrors_skip (all_sited calleeKnown) (calleeRule ▸ rfl),
        rangeErrors_node (by decide)]
      have calleeSettles := readPath_settles (all_sited calleeKnown) calleeRule
      have argumentsSettle := readArguments_settles (fun _ member => passedKnown.child member)
        passedSited.stems.ordered
        (List.forall_mem_map.mp (Rule.Leaves.arguments passedSited.fits))
      apply calleeSettles.bind
      intro path row
      apply argumentsSettle.map
      intro arguments rows
      have passed := (rows.other passedSited.encloses).widen between behind
      exact ((row.widen before (Nat.le_refl _)).cons passed).other sited.encloses
  | array =>
      rw [rangeErrors_node (by decide)]
      have rules := List.forall_mem_map.mp (Rule.Leaves.array sited.fits)
      apply (readExprs_settles known ordered rules).map
      exact fun exprs rows => rows.other sited.encloses
  | dictionary =>
      rw [rangeErrors_node (by decide)]
      have rules := List.forall_mem_map.mp (Rule.Leaves.dictionary sited.fits)
      apply (readEntries_settles known ordered rules).map
      exact fun entries rows => rows.other sited.encloses
  | awaitExpression =>
      rw [rangeErrors_node (by decide)]
      have ways : trees.map Node.rule ∈ [[.expression, .expression]] :=
        Rule.Leaves.mem_ways sited.fits nofun rfl
      obtain ⟨operand, duration, rfl, operandRule, durationRule⟩ :=
        children_two (List.mem_singleton.mp ways)
      simp only [List.forall_mem_cons] at known
      obtain ⟨operandKnown, durationKnown, -⟩ := known
      obtain ⟨before, -, behind⟩ := ordered
      have durationSettles := only_settles (List.forall_mem_singleton.mpr durationKnown) duration
        rfl behind (durationRule ▸ rfl)
      rw [rangeErrors_cons]
      apply (operandKnown.root.settled.expr (operandRule ▸ rfl)).bind
      intro expr row
      apply durationSettles.map
      intro limit limitRow
      exact ((row.widen before (Nat.le_refl _)).cons limitRow).other sited.encloses
  | tryExpression =>
      rw [rangeErrors_node (by decide)]
      have ways : trees.map Node.rule ∈ [[.expression]] :=
        Rule.Leaves.mem_ways sited.fits nofun rfl
      obtain ⟨operand, rfl, operandRule⟩ := children_one (List.mem_singleton.mp ways)
      apply (only_settles known operand rfl ordered (operandRule ▸ rfl)).map
      exact fun expr row => row.other sited.encloses
  | _ => cases isExpression

end

end Ast

end FlowScript
