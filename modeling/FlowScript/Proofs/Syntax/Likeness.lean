import FlowScript.Proofs.Grammar.Lexeme
import FlowScript.Proofs.Grammar.Placement
import FlowScript.Proofs.Grammar.Shape
import FlowScript.Proofs.Syntax.Unlocated
import FlowScript.Program

/-!
# Reading trees with the same sketch

A syntax tree depends on the rules of the parse tree, on the texts of its names and
literals, and on positions. So two parse trees with the same sketch, from two texts, are
read as the same syntax tree apart from spans.
-/

set_option autoImplicit false

namespace FlowScript

open FlowScript.Grammar (Node Rule Leaves flow sketchAll contentOf)

/-! ## Where names stand -/

namespace Grammar.Rule.Leaves

open Grammar.Expression (word sequenceOf)

variable {rules : List Rule} {first second : Rule}

theorem path (leaves : Rule.identifierPath.Leaves rules) : ∀ rule ∈ rules, rule.isContent := by
  have sequence : Grammar.Leaves (.sequence (.rule .identifier)
      (.many (.sequence (.text ['.']) (.rule .identifier)))) rules := leaves
  obtain ⟨left, right, rfl, head, tail⟩ := Grammar.leaves_sequence_iff.mp sequence
  have name : ∀ rules, Grammar.Leaves (.rule .identifier) rules → ∀ rule ∈ rules, rule.isContent := by
    intro rules leaves
    cases List.mem_singleton.mp (leaves.mem_leavings rfl)
    exact List.forall_mem_singleton.mpr rfl
  have round : ∀ rules, Grammar.Leaves (.sequence (.text ['.']) (.rule .identifier)) rules →
      ∀ rule ∈ rules, rule.isContent := by
    intro rules leaves
    obtain ⟨point, named, rfl, nothing, identifier⟩ := Grammar.leaves_sequence_iff.mp leaves
    rw [Grammar.leaves_text_iff.mp nothing]
    exact name named identifier
  have names : (fun rules : List Rule => ∀ rule ∈ rules, rule.isContent) right := by
    apply Grammar.leaves_many_all _ nofun round tail
    intro left right leftNames rightNames
    exact List.forall_mem_append.mpr ⟨leftNames, rightNames⟩
  exact List.forall_mem_append.mpr ⟨name left head, names⟩

theorem argument (leaves : Rule.argument.Leaves [first, second]) : first.isContent := by
  have way : [first, second] ∈ [[.expression], [.identifier, .expression]] :=
    leaves.mem_ways nofun rfl
  rcases List.mem_cons.mp way with same | way
  · cases same
  · cases List.mem_singleton.mp way
    rfl

theorem dictionaryEntry (leaves : Rule.dictionaryEntry.Leaves [first, second]) :
    first.isContent := by
  have way : [first, second] ∈ [[.identifier, .expression]] := leaves.mem_ways nofun rfl
  cases List.mem_singleton.mp way
  rfl

theorem parameter (leaves : Rule.parameter.Leaves [first, second]) :
    first.isContent ∧ second.isContent := by
  have way : [first, second] ∈ [[.identifier, .identifier]] := leaves.mem_ways nofun rfl
  cases List.mem_singleton.mp way
  exact ⟨rfl, rfl⟩

theorem returnType (leaves : Rule.returnType.Leaves [first]) : first.isContent := by
  have way : [first] ∈ [[.identifier]] := leaves.mem_ways nofun rfl
  cases List.mem_singleton.mp way
  rfl

theorem variableDeclaration (leaves : Rule.variableDeclaration.Leaves (first :: second :: rules)) :
    first.isContent ∧ second.isContent := by
  have way : first :: second :: rules ∈
      [[.identifier, .identifier], [.identifier, .identifier, .expression]] :=
    leaves.mem_ways nofun rfl
  rcases List.mem_cons.mp way with same | way
  · cases same
    exact ⟨rfl, rfl⟩
  · cases List.mem_singleton.mp way
    exact ⟨rfl, rfl⟩

theorem workflowDefinition (leaves : Rule.workflowDefinition.Leaves (first :: rules)) :
    first.isContent := by
  have way : first :: rules ∈ [[.identifier, .block], [.identifier, .signature, .block],
      [.identifier, .signature, .block]] := leaves.mem_ways nofun rfl
  simp only [List.mem_cons, List.cons.injEq, List.not_mem_nil, or_false] at way
  rcases way with ⟨rfl, -⟩ | ⟨rfl, -⟩ | ⟨rfl, -⟩ <;> rfl

theorem importStatement (leaves : Rule.importStatement.Leaves [first]) :
    first = .identifierPath := by
  have way : [first] ∈ [[.identifierPath]] := leaves.mem_ways nofun rfl
  cases List.mem_singleton.mp way
  rfl

theorem assignment (leaves : Rule.assignment.Leaves [first, second]) :
    first = .identifierPath := by
  have way : [first, second] ∈ [[.identifierPath, .expression]] := leaves.mem_ways nofun rfl
  cases List.mem_singleton.mp way
  rfl

theorem functionCall (leaves : Rule.functionCall.Leaves [first, second]) :
    first = .identifierPath := by
  have way : [first, second] ∈ [[.identifierPath, .arguments]] := leaves.mem_ways nofun rfl
  cases List.mem_singleton.mp way
  rfl

theorem string (leaves : Rule.stringTriple.Leaves [first] ∨ Rule.stringSingle.Leaves [first]) :
    first.isContent := by
  rcases leaves with triple | single
  · have way : [first] ∈ [[.stringTripleContent]] := triple.mem_ways nofun rfl
    cases List.mem_singleton.mp way
    rfl
  · have way : [first] ∈ [[.stringSingleContent]] := single.mem_ways nofun rfl
    cases List.mem_singleton.mp way
    rfl

theorem duration (leaves : Rule.duration.Leaves [first, second]) :
    first.isContent ∧ second.isContent := by
  have way : [first, second] ∈ [[.durationCount, .durationUnit]] := leaves.mem_ways nofun rfl
  cases List.mem_singleton.mp way
  exact ⟨rfl, rfl⟩

end Grammar.Rule.Leaves

/-! ## Twins -/

namespace Ast

variable {source target : Text}

section

variable {tree twin : Tree} {trees twins : List Tree} {rule : Rule} {start stop : Nat}

theorem twins_nil (alike : sketchAll source [] = sketchAll target twins) : twins = [] :=
  Grammar.sketchAll_eq_nil alike.symm

theorem twins_cons (alike : sketchAll source (tree :: trees) = sketchAll target twins) :
    ∃ twin others, twins = twin :: others ∧ tree.sketch source = twin.sketch target ∧
      sketchAll source trees = sketchAll target others := by
  obtain ⟨twin, others, rfl, first, rest⟩ := Grammar.sketchAll_eq_cons alike.symm
  exact ⟨twin, others, rfl, first.symm, rest.symm⟩

theorem twins_single (alike : sketchAll source [tree] = sketchAll target twins) :
    ∃ twin, twins = [twin] ∧ tree.sketch source = twin.sketch target := by
  obtain ⟨twin, rfl, same⟩ := Grammar.sketchAll_eq_single alike.symm
  exact ⟨twin, rfl, same.symm⟩

theorem twins_pair {second : Tree}
    (alike : sketchAll source [tree, second] = sketchAll target twins) :
    ∃ twin other, twins = [twin, other] ∧ tree.sketch source = twin.sketch target ∧
      second.sketch source = other.sketch target := by
  obtain ⟨twin, others, rfl, same, rest⟩ := twins_cons alike
  obtain ⟨other, rfl, secondSame⟩ := twins_single rest
  exact ⟨twin, other, rfl, same, secondSame⟩

theorem twins_triple {second third : Tree}
    (alike : sketchAll source [tree, second, third] = sketchAll target twins) :
    ∃ twin other last, twins = [twin, other, last] ∧ tree.sketch source = twin.sketch target ∧
      second.sketch source = other.sketch target ∧ third.sketch source = last.sketch target := by
  obtain ⟨twin, others, rfl, same, rest⟩ := twins_cons alike
  obtain ⟨other, last, rfl, secondSame, thirdSame⟩ := twins_pair rest
  exact ⟨twin, other, last, rfl, same, secondSame, thirdSame⟩

theorem twin_node (alike : (Node.node rule start stop trees).sketch source = twin.sketch target) :
    ∃ opening closing twins, twin = .node rule opening closing twins ∧
      contentOf source rule start stop = contentOf target rule opening closing ∧
      sketchAll source trees = sketchAll target twins := by
  obtain ⟨opening, closing, twins, rfl, content, inside⟩ := Grammar.sketch_eq_node alike.symm
  exact ⟨opening, closing, twins, rfl, content.symm, inside.symm⟩

/-- The texts of names and literals are the same. -/
theorem textOf_alike (alike : tree.sketch source = twin.sketch target)
    (content : tree.rule.isContent) : textOf source tree = textOf target twin := by
  obtain ⟨rule, start, stop, trees⟩ := tree
  obtain ⟨opening, closing, twins, rfl, same, -⟩ := twin_node alike
  have inner : rule.isContent = true := content
  simp only [contentOf, inner, if_true] at same
  exact congrArg String.ofList same

theorem readIdentifier_alike (alike : tree.sketch source = twin.sketch target)
    (content : tree.rule.isContent) :
    (readIdentifier source tree).unlocated = (readIdentifier target twin).unlocated := by
  simp only [readIdentifier, Identifier.unlocated, textOf_alike alike content]

end

/-! ## Reading twins -/

/-- What is read on the left is read on the right, up to the relation. -/
def ReadsAs {α : Type} (same : α → α → Prop) (left right : Except ReadError α) : Prop :=
  ∀ value, left = .ok value → ∃ other, right = .ok other ∧ same value other

namespace ReadsAs

variable {α β : Type} {same : α → α → Prop} {between : β → β → Prop}

theorem pure {value other : α} (alike : same value other) :
    ReadsAs same (pure value) (pure other) := by
  rintro _ ⟨⟩
  exact ⟨other, rfl, alike⟩

theorem error {error : ReadError} {right : Except ReadError α} :
    ReadsAs same (.error error) right := nofun

theorem bind {left right : Except ReadError β} {next other : β → Except ReadError α}
    (first : ReadsAs between left right)
    (rest : ∀ value twin, between value twin → ReadsAs same (next value) (other twin)) :
    ReadsAs same (left >>= next) (right >>= other) := by
  cases left with
  | error => exact .error
  | ok value =>
      obtain ⟨twin, rfl, alike⟩ := first value rfl
      exact rest value twin alike

end ReadsAs

/-- The tree and its twin are read as the same, apart from spans. -/
structure ReadsAlike (source target : Text) (tree twin : Tree) : Prop where
  expr : ReadsAs (fun expr other => expr.unlocated = other.unlocated)
    (readExpr source tree) (readExpr target twin)
  statement : ReadsAs (fun statement other => statement.unlocated = other.unlocated)
    (readStatement source tree) (readStatement target twin)
  block : ReadsAs (fun block other => block.unlocated = other.unlocated)
    (readBlock source tree) (readBlock target twin)
  conditional : ReadsAs (fun conditional other => conditional.unlocated = other.unlocated)
    (readConditional source tree) (readConditional target twin)

/-- The tree has the shape that its rule gives it. -/
def Fits (tree : Tree) : Prop := tree.rule.Leaves (tree.children.map Node.rule)

/-- The tree fits its rule, and its twins are read as it is. -/
structure Legible (source target : Text) (tree : Tree) : Prop where
  fits : Fits tree
  reads : ∀ twin : Tree, tree.sketch source = twin.sketch target →
    ReadsAlike source target tree twin

theorem readIdentifiers_alike {trees twins : List Tree}
    (names : ∀ rule ∈ trees.map Node.rule, rule.isContent)
    (alike : sketchAll source trees = sketchAll target twins) :
    (trees.map (readIdentifier source)).map (·.unlocated) =
      (twins.map (readIdentifier target)).map (·.unlocated) := by
  induction trees generalizing twins with
  | nil =>
      rw [twins_nil alike]
      rfl
  | cons tree trees ih =>
      obtain ⟨twin, others, rfl, same, rest⟩ := twins_cons alike
      obtain ⟨name, otherNames⟩ := List.forall_mem_cons.mp names
      simp only [List.map_cons, readIdentifier_alike same name, ih otherNames rest]

theorem readPath_alike {tree twin : Tree} (fits : Fits tree) (path : tree.rule = .identifierPath)
    (alike : tree.sketch source = twin.sketch target) :
    ReadsAs (fun path other => path.unlocated = other.unlocated)
      (readPath source tree) (readPath target twin) := by
  obtain ⟨rule, start, stop, trees⟩ := tree
  obtain ⟨opening, closing, twins, rfl, -, inside⟩ := twin_node alike
  cases path
  have names := Rule.Leaves.path fits
  cases trees with
  | nil => exact .error
  | cons head tail =>
      obtain ⟨twin, others, rfl, same, rest⟩ := twins_cons inside
      obtain ⟨headName, tailNames⟩ := List.forall_mem_cons.mp names
      apply ReadsAs.pure
      simp only [Path.unlocated, readIdentifier_alike same headName,
        readIdentifiers_alike tailNames rest]

/-! ## Expressions -/

section

variable {trees twins : List Tree} (legible : ∀ tree ∈ trees, tree.All (Legible source target))
  (alike : sketchAll source trees = sketchAll target twins)

include legible alike

theorem readExprs_alike :
    ReadsAs (fun exprs others => Expr.allUnlocated exprs = Expr.allUnlocated others)
      (readExprs source trees) (readExprs target twins) := by
  induction trees generalizing twins with
  | nil =>
      rw [twins_nil alike]
      exact .pure rfl
  | cons tree trees ih =>
      obtain ⟨twin, others, rfl, same, rest⟩ := twins_cons alike
      obtain ⟨treeLegible, restLegible⟩ := List.forall_mem_cons.mp legible
      apply ReadsAs.bind (treeLegible.root.reads twin same).expr
      intro expr other exprSame
      apply ReadsAs.bind (ih restLegible rest)
      intro exprs others exprsSame
      apply ReadsAs.pure
      simp only [Expr.allUnlocated, exprSame, exprsSame]

theorem readArguments_alike :
    ReadsAs (fun arguments others =>
        Argument.allUnlocated arguments = Argument.allUnlocated others)
      (readArguments source trees) (readArguments target twins) := by
  induction trees generalizing twins with
  | nil =>
      rw [twins_nil alike]
      exact .pure rfl
  | cons tree trees ih =>
      obtain ⟨twin, others, rfl, same, rest⟩ := twins_cons alike
      obtain ⟨treeLegible, restLegible⟩ := List.forall_mem_cons.mp legible
      obtain ⟨rule, start, stop, children⟩ := tree
      obtain ⟨opening, closing, parts, rfl, -, inside⟩ := twin_node same
      have fits := treeLegible.root.fits
      cases rule with
      | argument =>
          match children with
          | [] => exact .error
          | [value] =>
              obtain ⟨twin, rfl, valueSame⟩ := twins_single inside
              apply ReadsAs.bind ((treeLegible.child (by simp [Node.children])).root.reads
                twin valueSame).expr
              intro expr other exprSame
              apply ReadsAs.bind (ih restLegible rest)
              intro arguments others argumentsSame
              apply ReadsAs.pure
              simp only [Argument.allUnlocated, exprSame, argumentsSame, Option.map_none]
          | [name, value] =>
              obtain ⟨key, twin, rfl, nameSame, valueSame⟩ := twins_pair inside
              have named := readIdentifier_alike nameSame (Rule.Leaves.argument fits)
              apply ReadsAs.bind ((treeLegible.child (by simp [Node.children])).root.reads
                twin valueSame).expr
              intro expr other exprSame
              apply ReadsAs.bind (ih restLegible rest)
              intro arguments others argumentsSame
              apply ReadsAs.pure
              simp only [Argument.allUnlocated, named, exprSame, argumentsSame, Option.map_some]
          | _ :: _ :: _ :: _ => exact .error
      | _ => exact .error

theorem readEntries_alike :
    ReadsAs (fun entries others => Entry.allUnlocated entries = Entry.allUnlocated others)
      (readEntries source trees) (readEntries target twins) := by
  induction trees generalizing twins with
  | nil =>
      rw [twins_nil alike]
      exact .pure rfl
  | cons tree trees ih =>
      obtain ⟨twin, others, rfl, same, rest⟩ := twins_cons alike
      obtain ⟨treeLegible, restLegible⟩ := List.forall_mem_cons.mp legible
      obtain ⟨rule, start, stop, children⟩ := tree
      obtain ⟨opening, closing, parts, rfl, -, inside⟩ := twin_node same
      have fits := treeLegible.root.fits
      cases rule with
      | dictionaryEntry =>
          match children with
          | [key, value] =>
              obtain ⟨name, twin, rfl, keySame, valueSame⟩ := twins_pair inside
              have named := readIdentifier_alike keySame (Rule.Leaves.dictionaryEntry fits)
              apply ReadsAs.bind ((treeLegible.child (by simp [Node.children])).root.reads
                twin valueSame).expr
              intro expr other exprSame
              apply ReadsAs.bind (ih restLegible rest)
              intro entries others entriesSame
              apply ReadsAs.pure
              simp only [Entry.allUnlocated, named, exprSame, entriesSame]
          | [] | [_] | _ :: _ :: _ :: _ => exact .error
      | _ => exact .error

end

theorem readOperations_alike (start stop opening closing : Nat) (trees twins : List Tree)
    (legible : ∀ tree ∈ trees, tree.All (Legible source target))
    (alike : sketchAll source trees = sketchAll target twins) :
    ReadsAs (fun operations others =>
        Operation.allUnlocated operations = Operation.allUnlocated others)
      (readOperations source start stop trees) (readOperations target opening closing twins) := by
  match trees with
  | [] =>
      rw [twins_nil alike]
      exact .pure rfl
  | [.node rule _ _ _] => cases rule <;> exact .error
  | .node rule head foot children :: operand :: rest =>
      obtain ⟨twin, others, rfl, same, more⟩ := twins_cons alike
      obtain ⟨operandTwin, others, rfl, operandSame, restSame⟩ := twins_cons more
      obtain ⟨-, operandLegible, restLegible⟩ := by
        simpa only [List.forall_mem_cons] using legible
      obtain ⟨first, last, parts, rfl, -, -⟩ := twin_node same
      cases rule with
      | binaryOperator op =>
          apply ReadsAs.bind (operandLegible.root.reads operandTwin operandSame).expr
          intro expr other exprSame
          apply ReadsAs.bind
            (readOperations_alike start stop opening closing rest others restLegible restSame)
          intro operations others operationsSame
          apply ReadsAs.pure
          simp only [Operation.allUnlocated, exprSame, operationsSame]
      | _ => exact .error

theorem readLiteralValue_alike {tree twin : Tree} (fits : Fits tree)
    (alike : tree.sketch source = twin.sketch target) {value : Literal}
    (read : readLiteralValue source tree = .ok value) :
    readLiteralValue target twin = .ok value := by
  have text := textOf_alike alike
  obtain ⟨rule, start, stop, trees⟩ := tree
  obtain ⟨opening, closing, twins, rfl, -, inside⟩ := twin_node alike
  rw [← read]
  cases rule with
  | stringTriple | stringSingle =>
      match trees with
      | [content] =>
          obtain ⟨twin, rfl, same⟩ := twins_single inside
          have named : content.rule.isContent := by
            apply Rule.Leaves.string
            first | exact .inl fits | exact .inr fits
          simp only [readLiteralValue, Node.rule, Node.children, textOf_alike same named]
      | [] | _ :: _ :: _ => cases read
  | duration =>
      match trees with
      | [count, unit] =>
          obtain ⟨countTwin, unitTwin, rfl, countSame, unitSame⟩ := twins_pair inside
          obtain ⟨countText, unitText⟩ := Rule.Leaves.duration fits
          simp only [readLiteralValue, Node.rule, Node.children, textOf_alike countSame countText,
            textOf_alike unitSame unitText]
      | [] | [_] | _ :: _ :: _ :: _ => cases read
  | boolean | real | integer => simp only [readLiteralValue, Node.rule, text rfl]
  | _ => cases read

theorem readLiteral_alike {tree twin : Tree} (fits : Fits tree)
    (alike : tree.sketch source = twin.sketch target) (span other : Span) :
    ReadsAs (fun expr other => expr.unlocated = other.unlocated)
      (readLiteral source span tree) (readLiteral target other twin) := by
  unfold readLiteral
  cases read : readLiteralValue source tree with
  | error => exact .error
  | ok value =>
      rw [readLiteralValue_alike fits alike read]
      exact .pure rfl

theorem chainOf_alike {first other : Expr} {operations others : List Operation}
    (firstSame : first.unlocated = other.unlocated)
    (operationsSame : Operation.allUnlocated operations = Operation.allUnlocated others)
    (span otherSpan : Span) :
    (chainOf first operations span).unlocated = (chainOf other others otherSpan).unlocated := by
  cases operations with
  | nil =>
      cases others with
      | nil => exact firstSame
      | cons operation others =>
          obtain ⟨op, operand, span⟩ := operation
          cases operationsSame
  | cons operation operations =>
      cases others with
      | nil =>
          obtain ⟨op, operand, span⟩ := operation
          cases operationsSame
      | cons operation others =>
          simp only [chainOf, List.isEmpty_cons, Bool.false_eq_true, if_false, Expr.unlocated,
            firstSame, operationsSame]

section

variable {trees twins : List Tree} {rule : Rule} {start stop opening closing : Nat}
  (legible : ∀ tree ∈ trees, tree.All (Legible source target))
  (alike : sketchAll source trees = sketchAll target twins)

include legible alike

theorem readExpr_alike (fits : Fits (.node rule start stop trees)) :
    ReadsAs (fun expr other => expr.unlocated = other.unlocated)
      (readExpr source (.node rule start stop trees))
      (readExpr target (.node rule opening closing twins)) := by
  cases rule with
  | expression | primary =>
      match trees with
      | [child] =>
          obtain ⟨twin, rfl, same⟩ := twins_single alike
          exact ((legible child (by simp)).root.reads twin same).expr
      | [] | _ :: _ :: _ => exact .error
  | logical | equality | relational | additive | multiplicative =>
      match trees with
      | [] => exact .error
      | first :: rest =>
          obtain ⟨twin, others, rfl, same, restSame⟩ := twins_cons alike
          obtain ⟨firstLegible, restLegible⟩ := List.forall_mem_cons.mp legible
          apply ReadsAs.bind (firstLegible.root.reads twin same).expr
          intro expr other exprSame
          apply ReadsAs.bind (readOperations_alike start stop opening closing rest others
            restLegible restSame)
          exact fun operations others operationsSame =>
            .pure (chainOf_alike exprSame operationsSame _ _)
  | unary =>
      match trees with
      | [operand] =>
          obtain ⟨twin, rfl, same⟩ := twins_single alike
          exact ((legible operand (by simp)).root.reads twin same).expr
      | [.node rule _ _ _, operand] =>
          obtain ⟨sign, twin, rfl, signSame, same⟩ := twins_pair alike
          obtain ⟨_, _, _, rfl, -, -⟩ := twin_node signSame
          cases rule with
          | unaryOperator op =>
              apply ReadsAs.bind ((legible operand (by simp)).root.reads twin same).expr
              intro expr other exprSame
              apply ReadsAs.pure
              simp only [Expr.unlocated, exprSame]
          | _ => exact .error
      | [] | _ :: _ :: _ :: _ => exact .error
  | literal =>
      match trees with
      | [child] =>
          obtain ⟨twin, rfl, same⟩ := twins_single alike
          exact readLiteral_alike (legible child (by simp)).root.fits same _ _
      | [] | _ :: _ :: _ => exact .error
  | identifierPath =>
      have same : (Node.node .identifierPath start stop trees).sketch source =
          (Node.node .identifierPath opening closing twins).sketch target := by
        simp only [Node.sketch, alike]
        rfl
      apply ReadsAs.bind (readPath_alike fits rfl same)
      intro path other pathSame
      apply ReadsAs.pure
      simp only [Expr.unlocated, pathSame]
  | functionCall =>
      match trees with
      | [callee, .node rule head foot arguments] =>
          obtain ⟨calleeTwin, twin, rfl, calleeSame, same⟩ := twins_pair alike
          obtain ⟨_, _, parts, rfl, -, inside⟩ := twin_node same
          have argumentsLegible := legible (.node rule head foot arguments) (by simp)
          cases rule with
          | arguments =>
              apply ReadsAs.bind (readPath_alike (legible callee (by simp)).root.fits
                (Rule.Leaves.functionCall fits) calleeSame)
              intro path other pathSame
              apply ReadsAs.bind (readArguments_alike
                (fun _ member => argumentsLegible.child member) inside)
              intro arguments others argumentsSame
              apply ReadsAs.pure
              simp only [Expr.unlocated, pathSame, argumentsSame]
          | _ => exact .error
      | _ :: .node rule _ _ _ :: _ :: _ => cases rule <;> exact .error
      | [] | [_] => exact .error
  | array =>
      apply ReadsAs.bind (readExprs_alike legible alike)
      intro exprs others exprsSame
      apply ReadsAs.pure
      simp only [Expr.unlocated, exprsSame]
  | dictionary =>
      apply ReadsAs.bind (readEntries_alike legible alike)
      intro entries others entriesSame
      apply ReadsAs.pure
      simp only [Expr.unlocated, entriesSame]
  | awaitExpression =>
      match trees with
      | [operand, duration] =>
          obtain ⟨operandTwin, durationTwin, rfl, operandSame, durationSame⟩ := twins_pair alike
          apply ReadsAs.bind ((legible operand (by simp)).root.reads operandTwin operandSame).expr
          intro awaited other awaitedSame
          apply ReadsAs.bind
            ((legible duration (by simp)).root.reads durationTwin durationSame).expr
          intro limit other limitSame
          apply ReadsAs.pure
          simp only [Expr.unlocated, awaitedSame, limitSame]
      | [] | [_] | _ :: _ :: _ :: _ => exact .error
  | tryExpression =>
      match trees with
      | [operand] =>
          obtain ⟨twin, rfl, same⟩ := twins_single alike
          apply ReadsAs.bind ((legible operand (by simp)).root.reads twin same).expr
          intro expr other exprSame
          apply ReadsAs.pure
          simp only [Expr.unlocated, exprSame]
      | [] | _ :: _ :: _ => exact .error
  | _ => exact .error

end

/-! ## Statements -/

/-- The same parameters, and left-over trees that are twins. -/
structure ParametersAlike (source target : Text) (trees : List Tree)
    (left right : List Parameter × List Tree) : Prop where
  parameters : left.1.map (·.unlocated) = right.1.map (·.unlocated)
  rest : sketchAll source left.2 = sketchAll target right.2
  fromTrees : ∀ tree ∈ left.2, tree ∈ trees

theorem readParameters_alike (trees twins : List Tree)
    (legible : ∀ tree ∈ trees, tree.All (Legible source target))
    (alike : sketchAll source trees = sketchAll target twins) :
    ReadsAs (ParametersAlike source target trees)
      (readParameters source trees) (readParameters target twins) := by
  have none : ParametersAlike source target trees ([], trees) ([], twins) :=
    ⟨rfl, alike, fun _ member => member⟩
  match trees with
  | [] =>
      rw [twins_nil alike] at none ⊢
      exact .pure none
  | .node rule start stop children :: rest =>
      obtain ⟨twin, others, rfl, same, restSame⟩ := twins_cons alike
      obtain ⟨opening, closing, parts, rfl, -, inside⟩ := twin_node same
      obtain ⟨own, restLegible⟩ := List.forall_mem_cons.mp legible
      have fits := own.root.fits
      cases rule with
      | parameter =>
          match children with
          | [name, typeName] =>
              obtain ⟨nameTwin, typeTwin, rfl, nameSame, typeSame⟩ := twins_pair inside
              obtain ⟨named, typed⟩ := Rule.Leaves.parameter fits
              apply ReadsAs.bind (readParameters_alike rest others restLegible restSame)
              intro result other found
              apply ReadsAs.pure
              constructor
              · rw [List.map_cons, List.map_cons, found.parameters]
                simp only [Parameter.unlocated, readIdentifier_alike nameSame named,
                  readIdentifier_alike typeSame typed]
              · exact found.rest
              · exact fun tree member => List.mem_cons_of_mem _ (found.fromTrees tree member)
          | [] =>
              rw [twins_nil inside] at none ⊢
              exact .pure none
          | [_] =>
              obtain ⟨twin, rfl, -⟩ := twins_single inside
              exact .pure none
          | _ :: _ :: _ :: _ =>
              obtain ⟨_, _, rfl, -, more⟩ := twins_cons inside
              obtain ⟨_, _, rfl, -, more⟩ := twins_cons more
              obtain ⟨_, _, rfl, -, more⟩ := twins_cons more
              exact .pure none
      | _ => exact .pure none

section

variable {trees twins : List Tree} {rule : Rule} {start stop opening closing : Nat}
  (legible : ∀ tree ∈ trees, tree.All (Legible source target))
  (alike : sketchAll source trees = sketchAll target twins)

include legible alike

theorem readSignature_alike :
    ReadsAs (fun signature other => signature.unlocated = other.unlocated)
      (readSignature source (.node rule start stop trees))
      (readSignature target (.node rule opening closing twins)) := by
  apply ReadsAs.bind (readParameters_alike trees twins legible alike)
  intro result other found
  obtain ⟨parameters, rest⟩ := result
  obtain ⟨others, restTwins⟩ := other
  obtain ⟨parametersSame, restSame, fromTrees⟩ := found
  match rest with
  | [] =>
      cases twins_nil restSame
      apply ReadsAs.pure
      simp only [Signature.unlocated, parametersSame, Option.map_none]
  | [.node rule first last children] =>
      obtain ⟨twin, rfl, same⟩ := twins_single restSame
      obtain ⟨_, _, parts, rfl, -, inside⟩ := twin_node same
      cases rule with
      | returnType =>
          match children with
          | [name] =>
              obtain ⟨twin, rfl, nameSame⟩ := twins_single inside
              have fits := (legible _ (fromTrees _ List.mem_cons_self)).root.fits
              have named := readIdentifier_alike nameSame (Rule.Leaves.returnType fits)
              apply ReadsAs.pure
              simp only [Signature.unlocated, parametersSame, named, Option.map_some]
          | [] | _ :: _ :: _ => exact .error
      | _ => exact .error
  | .node rule _ _ children :: _ :: _ =>
      cases rule with
      | returnType =>
          match children with
          | [] | [_] | _ :: _ :: _ => exact .error
      | _ => exact .error

theorem readStatements_alike :
    ReadsAs (fun statements others =>
        Statement.allUnlocated statements = Statement.allUnlocated others)
      (readStatements source trees) (readStatements target twins) := by
  induction trees generalizing twins with
  | nil =>
      rw [twins_nil alike]
      exact .pure rfl
  | cons tree trees ih =>
      obtain ⟨twin, others, rfl, same, rest⟩ := twins_cons alike
      obtain ⟨treeLegible, restLegible⟩ := List.forall_mem_cons.mp legible
      apply ReadsAs.bind (treeLegible.root.reads twin same).statement
      intro statement other statementSame
      apply ReadsAs.bind (ih restLegible rest)
      intro statements others statementsSame
      apply ReadsAs.pure
      simp only [Statement.allUnlocated, statementSame, statementsSame]

theorem readBlock_alike :
    ReadsAs (fun block other => block.unlocated = other.unlocated)
      (readBlock source (.node rule start stop trees))
      (readBlock target (.node rule opening closing twins)) := by
  apply ReadsAs.bind (readStatements_alike legible alike)
  intro statements others statementsSame
  apply ReadsAs.pure
  simp only [Block.unlocated, statementsSame]

theorem readConditional_alike :
    ReadsAs (fun conditional other => conditional.unlocated = other.unlocated)
      (readConditional source (.node rule start stop trees))
      (readConditional target (.node rule opening closing twins)) := by
  match trees with
  | [condition, body] =>
      obtain ⟨twin, bodyTwin, rfl, same, bodySame⟩ := twins_pair alike
      apply ReadsAs.bind ((legible condition (by simp)).root.reads twin same).expr
      intro expr other exprSame
      apply ReadsAs.bind ((legible body (by simp)).root.reads bodyTwin bodySame).block
      intro block other blockSame
      apply ReadsAs.pure
      simp only [Conditional.unlocated, exprSame, blockSame]
  | [] | [_] | _ :: _ :: _ :: _ => exact .error

theorem readBranches_alike :
    ReadsAs (fun branches others =>
        Conditional.allUnlocated branches.1 = Conditional.allUnlocated others.1 ∧
          Block.optionalUnlocated branches.2 = Block.optionalUnlocated others.2)
      (readBranches source trees) (readBranches target twins) := by
  induction trees generalizing twins with
  | nil =>
      rw [twins_nil alike]
      exact .pure ⟨rfl, rfl⟩
  | cons tree trees ih =>
      obtain ⟨twin, others, rfl, same, rest⟩ := twins_cons alike
      obtain ⟨treeLegible, restLegible⟩ := List.forall_mem_cons.mp legible
      obtain ⟨rule, start, stop, children⟩ := tree
      have reads := treeLegible.root.reads twin same
      obtain ⟨opening, closing, parts, rfl, -, inside⟩ := twin_node same
      cases rule with
      | conditional =>
          apply ReadsAs.bind reads.conditional
          intro conditional other conditionalSame
          apply ReadsAs.bind (ih restLegible rest)
          intro branches others branchesSame
          apply ReadsAs.pure
          simp only [Conditional.allUnlocated, conditionalSame, branchesSame, and_self]
      | block =>
          cases trees with
          | nil =>
              cases twins_nil rest
              apply ReadsAs.bind reads.block
              intro block other blockSame
              apply ReadsAs.pure
              simp only [Block.optionalUnlocated, blockSame, and_self]
          | cons => exact .error
      | _ => exact .error

theorem readStatement_alike (fits : Fits (.node rule start stop trees)) :
    ReadsAs (fun statement other => statement.unlocated = other.unlocated)
      (readStatement source (.node rule start stop trees))
      (readStatement target (.node rule opening closing twins)) := by
  cases rule with
  | statement =>
      match trees with
      | [child] =>
          obtain ⟨twin, rfl, same⟩ := twins_single alike
          exact ((legible child (by simp)).root.reads twin same).statement
      | [] | _ :: _ :: _ => exact .error
  | importStatement =>
      match trees with
      | [child] =>
          obtain ⟨twin, rfl, same⟩ := twins_single alike
          apply ReadsAs.bind (readPath_alike (legible child (by simp)).root.fits
            (Rule.Leaves.importStatement fits) same)
          intro path other pathSame
          apply ReadsAs.pure
          simp only [Statement.unlocated, pathSame]
      | [] | _ :: _ :: _ => exact .error
  | delayStatement | returnStatement | raiseStatement | expressionStatement =>
      match trees with
      | [value] =>
          obtain ⟨twin, rfl, same⟩ := twins_single alike
          apply ReadsAs.bind ((legible value (by simp)).root.reads twin same).expr
          intro expr other exprSame
          apply ReadsAs.pure
          simp only [Statement.unlocated, exprSame]
      | [] | _ :: _ :: _ => exact .error
  | breakStatement => exact .pure rfl
  | variableDeclaration =>
      match trees with
      | [first, second] =>
          obtain ⟨name, typeName, rfl, nameSame, typeSame⟩ := twins_pair alike
          obtain ⟨named, typed⟩ := Rule.Leaves.variableDeclaration fits
          apply ReadsAs.pure
          simp only [Statement.unlocated, readIdentifier_alike nameSame named,
            readIdentifier_alike typeSame typed]
      | [first, second, value] =>
          obtain ⟨name, typeName, twin, rfl, nameSame, typeSame, same⟩ := twins_triple alike
          obtain ⟨named, typed⟩ := Rule.Leaves.variableDeclaration fits
          apply ReadsAs.bind ((legible value (by simp)).root.reads twin same).expr
          intro expr other exprSame
          apply ReadsAs.pure
          simp only [Statement.unlocated, readIdentifier_alike nameSame named,
            readIdentifier_alike typeSame typed, Option.map_some, exprSame]
      | [] | [_] | _ :: _ :: _ :: _ :: _ => exact .error
  | assignment =>
      match trees with
      | [first, value] =>
          obtain ⟨path, twin, rfl, pathSame, same⟩ := twins_pair alike
          apply ReadsAs.bind (readPath_alike (legible first (by simp)).root.fits
            (Rule.Leaves.assignment fits) pathSame)
          intro path other pathSame
          apply ReadsAs.bind ((legible value (by simp)).root.reads twin same).expr
          intro expr other exprSame
          apply ReadsAs.pure
          simp only [Statement.unlocated, pathSame, exprSame]
      | [] | [_] | _ :: _ :: _ :: _ => exact .error
  | ifStatement =>
      match trees with
      | [] => exact .error
      | first :: rest =>
          obtain ⟨twin, others, rfl, same, restSame⟩ := twins_cons alike
          obtain ⟨firstLegible, restLegible⟩ := List.forall_mem_cons.mp legible
          apply ReadsAs.bind (firstLegible.root.reads twin same).conditional
          intro conditional other conditionalSame
          apply ReadsAs.bind (readBranches_alike restLegible restSame)
          intro branches others branchesSame
          apply ReadsAs.pure
          simp only [Statement.unlocated, conditionalSame, branchesSame]
  | repeatStatement =>
      match trees with
      | [body] =>
          obtain ⟨twin, rfl, same⟩ := twins_single alike
          apply ReadsAs.bind ((legible body (by simp)).root.reads twin same).block
          intro block other blockSame
          apply ReadsAs.pure
          simp only [Statement.unlocated, blockSame]
      | [] | _ :: _ :: _ => exact .error
  | workflowDefinition =>
      match trees with
      | [first, body] =>
          obtain ⟨name, twin, rfl, nameSame, same⟩ := twins_pair alike
          have named := readIdentifier_alike nameSame (Rule.Leaves.workflowDefinition fits)
          apply ReadsAs.bind ((legible body (by simp)).root.reads twin same).block
          intro block other blockSame
          apply ReadsAs.pure
          simp only [Statement.unlocated, named, blockSame, Option.map_none]
      | [first, .node rule head foot children, body] =>
          obtain ⟨name, signed, twin, rfl, nameSame, signedSame, same⟩ := twins_triple alike
          obtain ⟨_, _, parts, rfl, -, inside⟩ := twin_node signedSame
          have named := readIdentifier_alike nameSame (Rule.Leaves.workflowDefinition fits)
          have own := legible (.node rule head foot children) (by simp)
          apply ReadsAs.bind (readSignature_alike (fun _ member => own.child member) inside)
          intro signature other signatureSame
          apply ReadsAs.bind ((legible body (by simp)).root.reads twin same).block
          intro block other blockSame
          apply ReadsAs.pure
          simp only [Statement.unlocated, named, blockSame, Option.map_some, signatureSame]
      | [] | [_] | _ :: _ :: _ :: _ :: _ => exact .error
  | _ => exact .error

end

/-! ## Whole trees -/

theorem legible_of_fits {tree : Tree} (fits : tree.All Fits) :
    tree.All (Legible source target) := by
  have both : tree.All fun other => Fits other ∧ ∀ twin : Tree,
      other.sketch source = twin.sketch target → ReadsAlike source target other twin := by
    apply fits.strengthen
    intro tree here children twin alike
    obtain ⟨rule, start, stop, trees⟩ := tree
    obtain ⟨opening, closing, twins, rfl, -, inside⟩ := twin_node alike
    have legible : ∀ child ∈ trees, child.All (Legible source target) :=
      fun child member => (children child member).imp fun _ parts => ⟨parts.1, parts.2⟩
    exact ⟨readExpr_alike legible inside here, readStatement_alike legible inside here,
      readBlock_alike legible inside, readConditional_alike legible inside⟩
  exact both.imp fun _ parts => ⟨parts.1, parts.2⟩

theorem fits_of_shaped {tree : Tree} (shaped : tree.Shaped) : tree.All Fits := by
  induction shaped with
  | node leaves _ ih => exact .node leaves ih

end Ast

end FlowScript
