import FlowScript.Proofs.Syntax.Parsing
import FlowScript.Proofs.Syntax.Settling.Expressions

/-!
# What reading statements comes to

Statements are read in the order of their parts as well, down to the names in signatures.
So the same holds for scripts.
-/

set_option autoImplicit false

namespace FlowScript

open FlowScript.Grammar (Node Rule InOrder flow)

namespace Ast

variable {source : Text}

/-! ## Signatures -/

theorem readParameters_settles {parameters last : List Rule}
    (areParameters : ∀ rule ∈ parameters, rule = .parameter)
    (ends : last = [] ∨ last = [.returnType]) {trees : List Tree} {start stop : Nat}
    (sited : ∀ tree ∈ trees, tree.All (Sited source))
    (ordered : InOrder start (trees.map Node.stretch) stop)
    (rules : trees.map Node.rule = parameters ++ last) :
    Settles [] (fun read : List Parameter × List Tree => ∃ middle,
        Layout.Row source start middle (read.1.map Parameter.layout) ∧
          InOrder middle (read.2.map Node.stretch) stop ∧ read.2.map Node.rule = last ∧
            ∀ tree ∈ read.2, tree.All (Sited source))
      (readParameters source trees) := by
  induction parameters generalizing trees start with
  | nil =>
      have none : readParameters source trees = pure ([], trees) := by
        rcases ends with rfl | rfl
        · rw [List.map_eq_nil_iff.mp rules]
          rfl
        · obtain ⟨⟨rule, opening, closing, parts⟩, rfl, same⟩ := children_one rules
          obtain rfl : rule = .returnType := same
          rfl
      rw [none]
      exact .pure ⟨start, .nil (Nat.le_refl _), ordered, rules, sited⟩
  | cons rule others ih =>
      obtain ⟨isParameter, areOthers⟩ := List.forall_mem_cons.mp areParameters
      obtain ⟨tree, rest, rfl, treeRule, restRules⟩ := List.map_eq_cons_iff.mp rules
      obtain ⟨here, restSited⟩ := List.forall_mem_cons.mp sited
      obtain ⟨before, -, behind⟩ := ordered
      have inside := here.root.stems.ordered
      have children := fun child (member : child ∈ tree.children) => here.child member
      have encloses := here.root.encloses
      have fits := here.root.fits
      obtain ⟨treeRule', opening, closing, parts⟩ := tree
      obtain rfl : treeRule' = .parameter := treeRule.trans isParameter
      have ways : parts.map Node.rule ∈ [[.identifier, .identifier]] :=
        Rule.Leaves.mem_ways fits nofun rfl
      obtain ⟨name, typeName, rfl, -, -⟩ := children_two (List.mem_singleton.mp ways)
      have names := readIdentifiers_row (fun child member => (children child member).root) inside
      apply (ih areOthers restSited behind restRules).map
      rintro ⟨read, remaining⟩ ⟨middle, row, onward, remainingRules, remainingSited⟩
      have parameter := (names.other encloses).widen before (Nat.le_refl _)
      exact ⟨middle, parameter.cons row, onward, remainingRules, remainingSited⟩

theorem readSignature_settles {tree : Tree} (sited : tree.All (Sited source))
    (isSignature : tree.rule = .signature) :
    Settles [] (fun signature => Layout.Row source tree.start tree.stop [signature.layout])
      (readSignature source tree) := by
  have here := sited.root
  obtain ⟨rule, start, stop, trees⟩ := tree
  obtain rfl : rule = .signature := isSignature
  obtain ⟨parameters, last, rules, areParameters, ends⟩ := Rule.Leaves.signature here.fits
  have parametersSettle := readParameters_settles areParameters ends
    (fun _ member => sited.child member) here.stems.ordered rules
  rw [← List.append_nil []]
  apply parametersSettle.bind
  rintro ⟨read, remaining⟩ ⟨middle, row, onward, remainingRules, remainingSited⟩
  rcases ends with rfl | rfl
  · obtain rfl := List.map_eq_nil_iff.mp remainingRules
    apply Settles.pure
    have whole := row.append (Layout.Row.nil onward)
    exact whole.other here.encloses
  · obtain ⟨type, rfl, typeRule⟩ := children_one remainingRules
    have typeSited := List.forall_mem_singleton.mp remainingSited
    have typeHere := typeSited.root
    have children := fun child (member : child ∈ type.children) => typeSited.child member
    obtain ⟨between, -, behind⟩ := onward
    obtain ⟨rule, opening, closing, parts⟩ := type
    obtain rfl : rule = .returnType := typeRule
    have ways : parts.map Node.rule ∈ [[.identifier]] := Rule.Leaves.mem_ways typeHere.fits nofun rfl
    obtain ⟨name, rfl, -⟩ := children_one (List.mem_singleton.mp ways)
    apply Settles.pure
    have named := readIdentifiers_row (fun child member => (children child member).root)
      typeHere.stems.ordered
    have whole := row.append (named.widen between behind)
    exact whole.other here.encloses

/-! ## Statements -/

section

variable {trees : List Tree} {start stop : Nat} (known : ∀ tree ∈ trees, tree.All (Known source))

include known

theorem readStatements_settles (ordered : InOrder start (trees.map Node.stretch) stop)
    (rules : ∀ tree ∈ trees, tree.rule = .statement) :
    Settles (rangeErrors source trees)
      (fun statements => Layout.Row source start stop (Statement.layouts statements))
      (readStatements source trees) := by
  induction trees generalizing start with
  | nil => exact .pure (.nil ordered)
  | cons tree rest ih =>
      obtain ⟨here, others⟩ := List.forall_mem_cons.mp known
      obtain ⟨rule, otherRules⟩ := List.forall_mem_cons.mp rules
      obtain ⟨before, -, behind⟩ := ordered
      have isStatement : tree.rule.isStatement := rule ▸ rfl
      rw [rangeErrors_cons]
      apply (here.root.settled.statement isStatement).bind
      intro statement row
      apply (ih others behind otherRules).map
      exact fun statements rows => (row.widen before (Nat.le_refl _)).cons rows

theorem readBlock_settles (sited : Sited source (.node .block start stop trees)) :
    Settles (rangeErrors source [.node .block start stop trees])
      (fun block => Layout.Row source start stop [block.layout])
      (readBlock source (.node .block start stop trees)) := by
  rw [rangeErrors_node (by decide)]
  have rules := List.forall_mem_map.mp (Rule.Leaves.statements sited.fits (.inl rfl))
  apply (readStatements_settles known sited.stems.ordered rules).map
  exact fun statements rows => rows.other sited.encloses

theorem readConditional_settles (sited : Sited source (.node .conditional start stop trees)) :
    Settles (rangeErrors source [.node .conditional start stop trees])
      (fun conditional => Layout.Row source start stop [conditional.layout])
      (readConditional source (.node .conditional start stop trees)) := by
  have ways : trees.map Node.rule ∈ [[.expression, .block]] :=
    Rule.Leaves.mem_ways sited.fits nofun rfl
  obtain ⟨condition, body, rfl, conditionRule, bodyRule⟩ :=
    children_two (List.mem_singleton.mp ways)
  simp only [List.forall_mem_cons] at known
  obtain ⟨conditionKnown, bodyKnown, -⟩ := known
  obtain ⟨before, -, between, -, behind⟩ := sited.stems.ordered
  rw [rangeErrors_node (by decide), rangeErrors_cons]
  apply (conditionKnown.root.settled.expr (conditionRule ▸ rfl)).bind
  intro expr row
  apply (bodyKnown.root.settled.block bodyRule).map
  intro block blockRow
  have inside := (row.widen before (Nat.le_refl _)).cons (blockRow.widen between behind)
  exact inside.other sited.encloses

theorem readBranches_settles {others last : List Rule}
    (areConditionals : ∀ rule ∈ others, rule = .conditional) (ends : last = [] ∨ last = [.block])
    (ordered : InOrder start (trees.map Node.stretch) stop)
    (rules : trees.map Node.rule = others ++ last) :
    Settles (rangeErrors source trees)
      (fun branches => Layout.Row source start stop
        (Conditional.layouts branches.1 ++ Block.optionalLayouts branches.2))
      (readBranches source trees) := by
  induction others generalizing trees start with
  | nil =>
      rcases ends with rfl | rfl
      · rw [List.map_eq_nil_iff.mp rules] at ordered ⊢
        exact .pure (.nil ordered)
      · obtain ⟨block, rfl, blockRule⟩ := children_one rules
        have blockSettles := (known block List.mem_cons_self).root.settled.block blockRule
        obtain ⟨before, -, behind⟩ := ordered
        obtain ⟨rule, opening, closing, parts⟩ := block
        obtain rfl : rule = .block := blockRule
        apply blockSettles.map
        exact fun block row => row.widen before behind
  | cons rule others ih =>
      obtain ⟨isConditional, areOthers⟩ := List.forall_mem_cons.mp areConditionals
      obtain ⟨tree, rest, rfl, treeRule, restRules⟩ := List.map_eq_cons_iff.mp rules
      obtain ⟨here, restKnown⟩ := List.forall_mem_cons.mp known
      obtain ⟨before, -, behind⟩ := ordered
      have treeSettles := here.root.settled.conditional (treeRule.trans isConditional)
      obtain ⟨treeRule', opening, closing, parts⟩ := tree
      obtain rfl : treeRule' = .conditional := treeRule.trans isConditional
      rw [rangeErrors_cons]
      apply treeSettles.bind
      intro conditional row
      apply (ih restKnown areOthers behind restRules).map
      intro branches rows
      exact (row.widen before (Nat.le_refl _)).cons rows

/-- A statement that is made of one expression. -/
theorem readStatement_expression {rule : Rule} (make : Expr → Span → Statement)
    (layout : ∀ expr span, (make expr span).layout = .node .other span [expr.layout])
    (reads : ∀ value, readStatement source (.node rule start stop [value]) =
      readExpr source value >>= fun expr => pure (make expr (source.span start stop)))
    (sited : Sited source (.node rule start stop trees))
    (ways : trees.map Node.rule ∈ [[Rule.expression]]) :
    Settles (rangeErrors source trees)
      (fun statement => Layout.Row source start stop [statement.layout])
      (readStatement source (.node rule start stop trees)) := by
  obtain ⟨value, rfl, valueRule⟩ := children_one (List.mem_singleton.mp ways)
  rw [reads]
  apply (only_settles known value rfl sited.stems.ordered (valueRule ▸ rfl)).map
  intro expr row
  rw [layout]
  exact row.other sited.encloses

theorem readDeclaration_settles (sited : Sited source (.node .variableDeclaration start stop trees)) :
    Settles (rangeErrors source [.node .variableDeclaration start stop trees])
      (fun statement => Layout.Row source start stop [statement.layout])
      (readStatement source (.node .variableDeclaration start stop trees)) := by
  have ordered := sited.stems.ordered
  rw [rangeErrors_node (by decide)]
  have ways : trees.map Node.rule ∈
      [[.identifier, .identifier], [.identifier, .identifier, .expression]] :=
    Rule.Leaves.mem_ways sited.fits nofun rfl
  simp only [List.mem_cons, List.not_mem_nil, or_false] at ways
  rcases ways with rules | rules
  · obtain ⟨name, typeName, rfl, nameRule, typeRule⟩ := children_two rules
    simp only [List.forall_mem_cons] at known
    obtain ⟨nameKnown, typeKnown, -⟩ := known
    rw [rangeErrors_skip (all_sited nameKnown) (nameRule ▸ rfl),
      rangeErrors_skip (all_sited typeKnown) (typeRule ▸ rfl)]
    have sites := List.forall_mem_cons.mpr
      ⟨nameKnown.root.sited, List.forall_mem_singleton.mpr typeKnown.root.sited⟩
    exact .pure ((readIdentifiers_row sites ordered).other sited.encloses)
  · obtain ⟨name, typeName, value, rfl, nameRule, typeRule, valueRule⟩ := children_three rules
    simp only [List.forall_mem_cons] at known
    obtain ⟨nameKnown, typeKnown, valueKnown, -⟩ := known
    obtain ⟨before, -, between, -, behind⟩ := ordered
    rw [rangeErrors_skip (all_sited nameKnown) (nameRule ▸ rfl),
      rangeErrors_skip (all_sited typeKnown) (typeRule ▸ rfl)]
    apply (only_settles (List.forall_mem_singleton.mpr valueKnown) value rfl behind
      (valueRule ▸ rfl)).map
    intro expr row
    have first := (readIdentifier_row nameKnown.root.sited).widen before (Nat.le_refl _)
    have second := (readIdentifier_row typeKnown.root.sited).widen between (Nat.le_refl _)
    exact (first.cons (second.cons row)).other sited.encloses

theorem readWorkflow_settles (sited : Sited source (.node .workflowDefinition start stop trees)) :
    Settles (rangeErrors source [.node .workflowDefinition start stop trees])
      (fun statement => Layout.Row source start stop [statement.layout])
      (readStatement source (.node .workflowDefinition start stop trees)) := by
  have ordered := sited.stems.ordered
  rw [rangeErrors_node (by decide)]
  have ways : trees.map Node.rule ∈ [[.identifier, .block], [.identifier, .signature, .block],
      [.identifier, .signature, .block]] := Rule.Leaves.mem_ways sited.fits nofun rfl
  simp only [List.mem_cons, List.not_mem_nil, or_false, or_self] at ways
  rcases ways with rules | rules
  · obtain ⟨name, body, rfl, nameRule, bodyRule⟩ := children_two rules
    simp only [List.forall_mem_cons] at known
    obtain ⟨nameKnown, bodyKnown, -⟩ := known
    obtain ⟨before, -, between, -, behind⟩ := ordered
    rw [rangeErrors_skip (all_sited nameKnown) (nameRule ▸ rfl)]
    apply (bodyKnown.root.settled.block bodyRule).map
    intro block row
    have named := (readIdentifier_row nameKnown.root.sited).widen before (Nat.le_refl _)
    exact (named.cons (row.widen between behind)).other sited.encloses
  · obtain ⟨name, signature, body, rfl, nameRule, signatureRule, bodyRule⟩ :=
      children_three rules
    simp only [List.forall_mem_cons] at known
    obtain ⟨nameKnown, signatureKnown, bodyKnown, -⟩ := known
    obtain ⟨before, -, between, -, further, -, behind⟩ := ordered
    rw [rangeErrors_skip (all_sited nameKnown) (nameRule ▸ rfl),
      rangeErrors_skip (all_sited signatureKnown) (signatureRule ▸ rfl)]
    apply (readSignature_settles (all_sited signatureKnown) signatureRule).bind
    intro signed signedRow
    apply (bodyKnown.root.settled.block bodyRule).map
    intro block row
    have named := (readIdentifier_row nameKnown.root.sited).widen before (Nat.le_refl _)
    have parts := (signedRow.widen between (Nat.le_refl _)).cons (row.widen further behind)
    exact (named.cons parts).other sited.encloses

theorem readStatement_settles {rule : Rule} (sited : Sited source (.node rule start stop trees))
    (isStatement : rule.isStatement) :
    Settles (rangeErrors source [.node rule start stop trees])
      (fun statement => Layout.Row source start stop [statement.layout])
      (readStatement source (.node rule start stop trees)) := by
  have ordered := sited.stems.ordered
  cases rule with
  | statement =>
      rw [rangeErrors_node (by decide)]
      obtain ⟨kind, rules, isStatement⟩ := Rule.Leaves.statement sited.fits
      obtain ⟨child, rfl, childRule⟩ := children_one rules
      obtain ⟨before, -, behind⟩ := ordered
      have childSettles := (known child List.mem_cons_self).root.settled.statement
        (childRule ▸ isStatement)
      exact childSettles.imp fun statement row => row.widen before behind
  | importStatement =>
      have ways : trees.map Node.rule ∈ [[.identifierPath]] :=
        Rule.Leaves.mem_ways sited.fits nofun rfl
      obtain ⟨path, rfl, pathRule⟩ := children_one (List.mem_singleton.mp ways)
      have pathSited := all_sited (known path List.mem_cons_self)
      obtain ⟨before, -, behind⟩ := ordered
      rw [rangeErrors_node (by decide), rangeErrors_plain pathSited (pathRule ▸ rfl)]
      apply (readPath_settles pathSited pathRule).map
      exact fun path row => (row.widen before behind).other sited.encloses
  | delayStatement =>
      rw [rangeErrors_node (by decide)]
      exact readStatement_expression known .delay (fun _ _ => rfl) (fun _ => rfl) sited
        (Rule.Leaves.mem_ways sited.fits nofun rfl)
  | returnStatement =>
      rw [rangeErrors_node (by decide)]
      exact readStatement_expression known .returning (fun _ _ => rfl) (fun _ => rfl) sited
        (Rule.Leaves.mem_ways sited.fits nofun rfl)
  | raiseStatement =>
      rw [rangeErrors_node (by decide)]
      exact readStatement_expression known .raising (fun _ _ => rfl) (fun _ => rfl) sited
        (Rule.Leaves.mem_ways sited.fits nofun rfl)
  | expressionStatement =>
      rw [rangeErrors_node (by decide)]
      exact readStatement_expression known .expression (fun _ _ => rfl) (fun _ => rfl) sited
        (Rule.Leaves.mem_ways sited.fits nofun rfl)
  | breakStatement =>
      have ways : trees.map Node.rule ∈ [[]] := Rule.Leaves.mem_ways sited.fits nofun rfl
      obtain rfl := List.map_eq_nil_iff.mp (List.mem_singleton.mp ways)
      rw [rangeErrors_node (by decide)]
      exact .pure ((Layout.Row.nil ordered).other sited.encloses)
  | variableDeclaration => exact readDeclaration_settles known sited
  | assignment =>
      rw [rangeErrors_node (by decide)]
      have ways : trees.map Node.rule ∈ [[.identifierPath, .expression]] :=
        Rule.Leaves.mem_ways sited.fits nofun rfl
      obtain ⟨target, value, rfl, targetRule, valueRule⟩ :=
        children_two (List.mem_singleton.mp ways)
      simp only [List.forall_mem_cons] at known
      obtain ⟨targetKnown, valueKnown, -⟩ := known
      obtain ⟨before, -, behind⟩ := ordered
      have valueSettles := only_settles (List.forall_mem_singleton.mpr valueKnown) value rfl behind
        (valueRule ▸ rfl)
      rw [rangeErrors_skip (all_sited targetKnown) (targetRule ▸ rfl)]
      apply (readPath_settles (all_sited targetKnown) targetRule).bind
      intro path pathRow
      apply valueSettles.map
      intro expr row
      exact ((pathRow.widen before (Nat.le_refl _)).cons row).other sited.encloses
  | ifStatement =>
      rw [rangeErrors_node (by decide)]
      obtain ⟨others, last, rules, areConditionals, ends⟩ := Rule.Leaves.ifStatement sited.fits
      obtain ⟨first, rest, rfl, firstRule, restRules⟩ := List.map_eq_cons_iff.mp rules
      obtain ⟨firstKnown, restKnown⟩ := List.forall_mem_cons.mp known
      obtain ⟨before, -, behind⟩ := ordered
      rw [rangeErrors_cons]
      apply (firstKnown.root.settled.conditional firstRule).bind
      intro conditional row
      apply (readBranches_settles restKnown areConditionals ends behind restRules).map
      intro branches rows
      exact ((row.widen before (Nat.le_refl _)).cons rows).other sited.encloses
  | repeatStatement =>
      rw [rangeErrors_node (by decide)]
      have ways : trees.map Node.rule ∈ [[.block]] := Rule.Leaves.mem_ways sited.fits nofun rfl
      obtain ⟨body, rfl, bodyRule⟩ := children_one (List.mem_singleton.mp ways)
      obtain ⟨before, -, behind⟩ := ordered
      apply ((known body List.mem_cons_self).root.settled.block bodyRule).map
      exact fun block row => (row.widen before behind).other sited.encloses
  | workflowDefinition => exact readWorkflow_settles known sited
  | _ => cases isStatement

end

/-! ## Whole trees -/

theorem known_of_sited {tree : Tree} (sited : tree.All (Sited source)) :
    tree.All (Known source) := by
  have both : tree.All fun other => Sited source other ∧ Settled source other := by
    apply sited.strengthen
    intro tree here children
    obtain ⟨rule, start, stop, trees⟩ := tree
    have known : ∀ child ∈ trees, child.All (Known source) :=
      fun child member => (children child member).imp fun _ parts => ⟨parts.1, parts.2⟩
    refine ⟨readExpr_settles known here, readStatement_settles known here, ?_, ?_⟩
    · rintro ⟨⟩
      exact readBlock_settles known here
    · rintro ⟨⟩
      exact readConditional_settles known here
  exact both.imp fun _ parts => ⟨parts.1, parts.2⟩

theorem readScript_settles {tree : Tree} (sited : tree.All (Sited source))
    (isProgram : tree.rule = .program) :
    Settles (rangeErrors source [tree])
      (fun script => Layout.Row source tree.start tree.stop [script.layout])
      (readScript source tree) := by
  have known := known_of_sited sited
  have here := sited.root
  obtain ⟨rule, start, stop, trees⟩ := tree
  obtain rfl : rule = .program := isProgram
  have rules := List.forall_mem_map.mp (Rule.Leaves.statements here.fits (.inr rfl))
  rw [rangeErrors_node (by decide)]
  apply (readStatements_settles (fun _ member => known.child member) here.stems.ordered rules).map
  exact fun statements rows => rows.other here.encloses

end Ast

/-- The tree of a text is what the start rule leaves in it. -/
theorem parseTree_sited {start : Rule} {source : Text} {tree : Ast.Tree}
    (captured : (flow.rules start).captured) (parsed : parseTree start source = .ok tree) :
    tree.All (Ast.Sited source) ∧ tree.rule = start := by
  obtain ⟨cursor, tokens, yields⟩ := parseTree_yields parsed
  have begins : Grammar.Cursor.Advances source ⟨source, 0⟩ ⟨source, 0⟩ :=
    ⟨[], [], source, rfl, rfl, rfl⟩
  have placed := (yields.placed begins _ rfl).nodes tree List.mem_cons_self
  have shaped := (yields.shaped (.inl (by decide)) _ rfl).nodes tree List.mem_cons_self
  have stems := yields.stems begins _ rfl tree List.mem_cons_self
  obtain ⟨root, same, isRoot, -⟩ := yields.parseTree captured
  cases same
  have all := ((Ast.fits_of_shaped shaped).and stems).and placed
  exact ⟨all.imp fun _ facts => ⟨facts.1.1, facts.1.2, facts.2⟩, isRoot⟩

end FlowScript
