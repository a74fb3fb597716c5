import FlowScript.Proofs.Grammar.Placement
import FlowScript.Proofs.Keeping
import FlowScript.Proofs.Syntax.Parsing
import FlowScript.Proofs.Syntax.Spans

/-!
# Where the nodes of a syntax tree stand

The spans of what is read from a parse tree are those of its nodes, except that the span
of an operation covers its operator and its operand. So all of them are stretches of the
text.
-/

set_option autoImplicit false

namespace FlowScript

/-- All of the spans enclose whole characters of the text. -/
def Text.Contains (source : Text) (spans : List Span) : Prop :=
  ∀ span ∈ spans, source.Encloses span.start span.stop

namespace Text

variable {source : Text}

@[simp] theorem contains_nil : source.Contains [] := nofun

@[simp] theorem contains_cons {span : Span} {spans : List Span} :
    source.Contains (span :: spans) ↔
      source.Encloses span.start span.stop ∧ source.Contains spans :=
  List.forall_mem_cons

@[simp] theorem contains_append {left right : List Span} :
    source.Contains (left ++ right) ↔ source.Contains left ∧ source.Contains right :=
  List.forall_mem_append

theorem encloses_merge {left right : Span} (leftInside : source.Encloses left.start left.stop)
    (rightInside : source.Encloses right.start right.stop) :
    source.Encloses (left.merge right).start (left.merge right).stop := by
  rw [Span.start_merge, Span.stop_merge]
  exact leftInside.cover rightInside

end Text

/-- What is read, if anything is, has the property. -/
abbrev Ast.Gives {α : Type} (post : α → Prop) (result : Except ReadError α) : Prop :=
  Ends (fun _ => True) post result

namespace Ast

open FlowScript.Grammar (Node Rule)

variable {source : Text}

theorem Gives.bind {α β : Type} {first : Except ReadError α} {next : α → Except ReadError β}
    {between : α → Prop} {post : β → Prop} (firstGives : Gives between first)
    (nextGives : ∀ value, between value → Gives post (next value)) :
    Gives post (first >>= next) := by
  cases first with
  | ok value => exact nextGives value firstGives
  | error error => trivial

/-- Whatever is read from the tree has spans in the text. -/
structure ReadsInside (source : Text) (tree : Tree) : Prop where
  expr : Gives (fun expr => source.Contains expr.spans) (readExpr source tree)
  statement : Gives (fun statement => source.Contains statement.spans) (readStatement source tree)
  block : Gives (fun block => source.Contains block.spans) (readBlock source tree)
  conditional : Gives (fun conditional => source.Contains conditional.spans)
    (readConditional source tree)

/-- The tree stands in the text, and what is read from it has spans there. -/
structure Inside (source : Text) (tree : Tree) : Prop where
  encloses : source.Encloses tree.start tree.stop
  reads : ReadsInside source tree

theorem readIdentifier_inside {name : Tree} (inside : name.All (Inside source)) :
    source.Encloses (readIdentifier source name).span.start
      (readIdentifier source name).span.stop :=
  inside.root.encloses

section

variable {tree : Tree} {trees : List Tree} {start stop : Nat}
  (inside : ∀ tree ∈ trees, tree.All (Inside source))

include inside

theorem readPath_inside {rule : Rule} (here : source.Encloses start stop) :
    Gives (fun path => source.Contains path.spans)
      (readPath source (.node rule start stop trees)) := by
  unfold readPath
  cases trees with
  | nil => trivial
  | cons head tail =>
      obtain ⟨headInside, tailInside⟩ := List.forall_mem_cons.mp inside
      simp only [Path.spans, Path.segments, List.map_cons, Text.contains_cons]
      refine ⟨here, headInside.root.encloses, fun span member => ?_⟩
      obtain ⟨segment, segmentMember, rfl⟩ := List.mem_map.mp member
      obtain ⟨child, childMember, rfl⟩ := List.mem_map.mp segmentMember
      exact (tailInside child childMember).root.encloses

theorem readExprs_inside :
    Gives (fun exprs => source.Contains (Expr.allSpans exprs)) (readExprs source trees) := by
  induction trees with
  | nil => exact Text.contains_nil
  | cons tree rest ih =>
      obtain ⟨treeInside, restInside⟩ := List.forall_mem_cons.mp inside
      unfold readExprs
      apply Gives.bind treeInside.root.reads.expr
      intro expr exprInside
      apply Gives.bind (ih restInside)
      intro exprs exprsInside
      exact Text.contains_append.mpr ⟨exprInside, exprsInside⟩

theorem readArguments_inside :
    Gives (fun arguments => source.Contains (Argument.allSpans arguments))
      (readArguments source trees) := by
  induction trees with
  | nil => exact Text.contains_nil
  | cons tree rest ih =>
      obtain ⟨treeInside, restInside⟩ := List.forall_mem_cons.mp inside
      obtain ⟨rule, start, stop, children⟩ := tree
      have parts : ∀ child ∈ children, child.All (Inside source) :=
        fun child member => treeInside.child member
      cases rule with
      | argument =>
          match children, parts with
          | [], _ => trivial
          | [value], parts =>
              apply Gives.bind (parts value (by simp)).root.reads.expr
              intro expr exprInside
              apply Gives.bind (ih restInside)
              intro arguments argumentsInside
              exact Text.contains_cons.mpr ⟨treeInside.root.encloses, Text.contains_append.mpr
                ⟨Text.contains_nil, Text.contains_append.mpr ⟨exprInside, argumentsInside⟩⟩⟩
          | [name, value], parts =>
              apply Gives.bind (parts value (by simp)).root.reads.expr
              intro expr exprInside
              apply Gives.bind (ih restInside)
              intro arguments argumentsInside
              have named := readIdentifier_inside (parts name (by simp))
              have names := Text.contains_cons.mpr ⟨named, Text.contains_nil⟩
              exact Text.contains_cons.mpr ⟨treeInside.root.encloses, Text.contains_append.mpr
                ⟨names, Text.contains_append.mpr ⟨exprInside, argumentsInside⟩⟩⟩
          | _ :: _ :: _ :: _, _ => trivial
      | _ => trivial

theorem readEntries_inside :
    Gives (fun entries => source.Contains (Entry.allSpans entries))
      (readEntries source trees) := by
  induction trees with
  | nil => exact Text.contains_nil
  | cons tree rest ih =>
      obtain ⟨treeInside, restInside⟩ := List.forall_mem_cons.mp inside
      obtain ⟨rule, start, stop, children⟩ := tree
      have parts : ∀ child ∈ children, child.All (Inside source) :=
        fun child member => treeInside.child member
      cases rule with
      | dictionaryEntry =>
          match children, parts with
          | [key, value], parts =>
              apply Gives.bind (parts value (by simp)).root.reads.expr
              intro expr exprInside
              apply Gives.bind (ih restInside)
              intro entries entriesInside
              have named := readIdentifier_inside (parts key (by simp))
              exact Text.contains_cons.mpr ⟨treeInside.root.encloses, Text.contains_cons.mpr
                ⟨named, Text.contains_append.mpr ⟨exprInside, entriesInside⟩⟩⟩
          | [], _ | [_], _ | _ :: _ :: _ :: _, _ => trivial
      | _ => trivial

omit inside in
theorem readOperations_inside (start stop : Nat) (trees : List Tree)
    (inside : ∀ tree ∈ trees, tree.All (Inside source)) :
    Gives (fun operations => source.Contains (Operation.allSpans operations))
      (readOperations source start stop trees) := by
  match trees with
  | [] => exact Text.contains_nil
  | [.node rule _ _ _] => cases rule <;> trivial
  | .node rule opening closing children :: operand :: rest =>
      obtain ⟨opInside, operandInside, restInside⟩ := by
        simpa only [List.forall_mem_cons] using inside
      cases rule with
      | binaryOperator op =>
          apply Gives.bind operandInside.root.reads.expr
          intro expr exprInside
          apply Gives.bind (readOperations_inside start stop rest restInside)
          intro operations operationsInside
          have covered := Text.encloses_merge
            (show source.Encloses (source.span opening closing).start
              (source.span opening closing).stop from opInside.root.encloses)
            (exprInside expr.span expr.span_mem)
          exact Text.contains_cons.mpr
            ⟨covered, Text.contains_append.mpr ⟨exprInside, operationsInside⟩⟩
      | _ => trivial

/-! ## Expressions -/

omit inside in
theorem readLiteral_inside {span : Span} (here : source.Encloses span.start span.stop)
    (tree : Tree) :
    Gives (fun expr => source.Contains expr.spans) (readLiteral source span tree) := by
  unfold readLiteral
  split
  · exact Text.contains_cons.mpr ⟨here, Text.contains_nil⟩
  · trivial

omit inside in
theorem chainOf_inside {first : Expr} {operations : List Operation} {span : Span}
    (here : source.Encloses span.start span.stop) (firstInside : source.Contains first.spans)
    (operationsInside : source.Contains (Operation.allSpans operations)) :
    source.Contains (chainOf first operations span).spans := by
  unfold chainOf
  split
  · exact firstInside
  · exact Text.contains_cons.mpr
      ⟨here, Text.contains_append.mpr ⟨firstInside, operationsInside⟩⟩

theorem readExpr_inside {rule : Rule} (here : source.Encloses start stop) :
    Gives (fun expr => source.Contains expr.spans)
      (readExpr source (.node rule start stop trees)) := by
  cases rule with
  | expression | primary =>
      match trees, inside with
      | [child], inside => exact (inside child (by simp)).root.reads.expr
      | [], _ | _ :: _ :: _, _ => trivial
  | logical | equality | relational | additive | multiplicative =>
      match trees, inside with
      | [], _ => trivial
      | first :: rest, inside =>
          obtain ⟨firstInside, restInside⟩ := List.forall_mem_cons.mp inside
          apply Gives.bind firstInside.root.reads.expr
          intro expr exprInside
          apply Gives.bind (readOperations_inside start stop rest restInside)
          exact fun operations operationsInside =>
            chainOf_inside here exprInside operationsInside
  | unary =>
      match trees, inside with
      | [operand], inside => exact (inside operand (by simp)).root.reads.expr
      | [.node rule _ _ _, operand], inside =>
          cases rule with
          | unaryOperator op =>
              apply Gives.bind (inside operand (by simp)).root.reads.expr
              exact fun expr exprInside => Text.contains_cons.mpr ⟨here, exprInside⟩
          | _ => trivial
      | [], _ | _ :: _ :: _ :: _, _ => trivial
  | literal =>
      match trees, inside with
      | [child], _ => exact readLiteral_inside here child
      | [], _ | _ :: _ :: _, _ => trivial
  | identifierPath =>
      apply Gives.bind (readPath_inside inside here)
      exact fun path pathInside => pathInside
  | functionCall =>
      match trees, inside with
      | [.node calleeRule _ _ callees, .node rule opening closing arguments], inside =>
          cases rule with
          | arguments =>
              have calleeInside := inside _ List.mem_cons_self
              have argumentsInside := inside (.node .arguments opening closing arguments) (by simp)
              apply Gives.bind (readPath_inside (fun _ member => calleeInside.child member)
                calleeInside.root.encloses)
              intro callee calleeSpans
              apply Gives.bind (readArguments_inside fun _ member =>
                argumentsInside.child member)
              exact fun arguments argumentsSpans => Text.contains_cons.mpr
                ⟨here, Text.contains_append.mpr ⟨calleeSpans, argumentsSpans⟩⟩
          | _ => trivial
      | _ :: .node rule _ _ _ :: _ :: _, _ => cases rule <;> trivial
      | [], _ | [_], _ => trivial
  | array =>
      apply Gives.bind (readExprs_inside inside)
      exact fun exprs exprsInside => Text.contains_cons.mpr ⟨here, exprsInside⟩
  | dictionary =>
      apply Gives.bind (readEntries_inside inside)
      exact fun entries entriesInside => Text.contains_cons.mpr ⟨here, entriesInside⟩
  | awaitExpression =>
      match trees, inside with
      | [operand, duration], inside =>
          apply Gives.bind (inside operand (by simp)).root.reads.expr
          intro awaited awaitedInside
          apply Gives.bind (inside duration (by simp)).root.reads.expr
          exact fun limit limitInside => Text.contains_cons.mpr
            ⟨here, Text.contains_append.mpr ⟨awaitedInside, limitInside⟩⟩
      | [], _ | [_], _ | _ :: _ :: _ :: _, _ => trivial
  | tryExpression =>
      match trees, inside with
      | [operand], inside =>
          apply Gives.bind (inside operand (by simp)).root.reads.expr
          exact fun expr exprInside => Text.contains_cons.mpr ⟨here, exprInside⟩
      | [], _ | _ :: _ :: _, _ => trivial
  | _ => trivial

/-! ## Statements -/

/-- Parameters that were read, and trees that are left over, are from these trees. -/
def ParametersInside (source : Text) (trees : List Tree)
    (result : List Parameter × List Tree) : Prop :=
  source.Contains (result.1.flatMap (·.spans)) ∧ ∀ tree ∈ result.2, tree ∈ trees

omit inside in
theorem readParameters_inside (trees : List Tree)
    (inside : ∀ tree ∈ trees, tree.All (Inside source)) :
    Gives (ParametersInside source trees) (readParameters source trees) := by
  have none : ParametersInside source trees ([], trees) :=
    ⟨Text.contains_nil, fun _ member => member⟩
  match trees with
  | [] => exact none
  | .node rule start stop children :: rest =>
      obtain ⟨own, restInside⟩ := List.forall_mem_cons.mp inside
      have parts : ∀ child ∈ children, child.All (Inside source) :=
        fun child member => own.child member
      cases rule with
      | parameter =>
          match children, parts with
          | [name, typeName], parts =>
              have named := readIdentifier_inside (parts name (by simp))
              have typed := readIdentifier_inside (parts typeName (by simp))
              apply Gives.bind (readParameters_inside rest restInside)
              intro result found
              refine ⟨?_, fun tree member => List.mem_cons_of_mem _ (found.2 tree member)⟩
              exact Text.contains_append.mpr ⟨Text.contains_cons.mpr ⟨own.root.encloses,
                Text.contains_cons.mpr ⟨named, Text.contains_cons.mpr
                  ⟨typed, Text.contains_nil⟩⟩⟩, found.1⟩
          | [], _ | [_], _ | _ :: _ :: _ :: _, _ => exact none
      | _ => exact none

theorem readSignature_inside {rule : Rule} (here : source.Encloses start stop) :
    Gives (fun signature => source.Contains signature.spans)
      (readSignature source (.node rule start stop trees)) := by
  apply Gives.bind (readParameters_inside trees inside)
  intro result found
  obtain ⟨parameters, rest⟩ := result
  match rest, found with
  | [], found =>
      exact Text.contains_cons.mpr
        ⟨here, Text.contains_append.mpr ⟨found.1, Text.contains_nil⟩⟩
  | [.node rule _ _ children], found =>
      cases rule with
      | returnType =>
          match children, found with
          | [name], found =>
              have returns := inside _ (found.2 _ List.mem_cons_self)
              have named := readIdentifier_inside (returns.child List.mem_cons_self)
              exact Text.contains_cons.mpr ⟨here, Text.contains_append.mpr
                ⟨found.1, Text.contains_cons.mpr ⟨named, Text.contains_nil⟩⟩⟩
          | [], _ | _ :: _ :: _, _ => trivial
      | _ => trivial
  | .node rule _ _ children :: _ :: _, _ =>
      cases rule with
      | returnType =>
          match children with
          | [] | [_] | _ :: _ :: _ => trivial
      | _ => trivial

theorem readStatements_inside :
    Gives (fun statements => source.Contains (Statement.allSpans statements))
      (readStatements source trees) := by
  induction trees with
  | nil => exact Text.contains_nil
  | cons tree rest ih =>
      obtain ⟨treeInside, restInside⟩ := List.forall_mem_cons.mp inside
      apply Gives.bind treeInside.root.reads.statement
      intro statement statementInside
      apply Gives.bind (ih restInside)
      exact fun statements statementsInside =>
        Text.contains_append.mpr ⟨statementInside, statementsInside⟩

theorem readBlock_inside {rule : Rule} (here : source.Encloses start stop) :
    Gives (fun block => source.Contains block.spans)
      (readBlock source (.node rule start stop trees)) := by
  apply Gives.bind (readStatements_inside inside)
  exact fun statements statementsInside => Text.contains_cons.mpr ⟨here, statementsInside⟩

theorem readConditional_inside {rule : Rule} (here : source.Encloses start stop) :
    Gives (fun conditional => source.Contains conditional.spans)
      (readConditional source (.node rule start stop trees)) := by
  match trees, inside with
  | [condition, body], inside =>
      apply Gives.bind (inside condition (by simp)).root.reads.expr
      intro expr exprInside
      apply Gives.bind (inside body (by simp)).root.reads.block
      exact fun block blockInside => Text.contains_cons.mpr
        ⟨here, Text.contains_append.mpr ⟨exprInside, blockInside⟩⟩
  | [], _ | [_], _ | _ :: _ :: _ :: _, _ => trivial

theorem readBranches_inside :
    Gives (fun branches => source.Contains (Conditional.allSpans branches.1) ∧
      source.Contains (Block.optionalSpans branches.2)) (readBranches source trees) := by
  induction trees with
  | nil => exact ⟨Text.contains_nil, Text.contains_nil⟩
  | cons tree rest ih =>
      obtain ⟨treeInside, restInside⟩ := List.forall_mem_cons.mp inside
      obtain ⟨rule, start, stop, children⟩ := tree
      cases rule with
      | conditional =>
          apply Gives.bind treeInside.root.reads.conditional
          intro conditional conditionalInside
          apply Gives.bind (ih restInside)
          exact fun branches branchesInside =>
            ⟨Text.contains_append.mpr ⟨conditionalInside, branchesInside.1⟩, branchesInside.2⟩
      | block =>
          cases rest with
          | nil =>
              apply Gives.bind treeInside.root.reads.block
              exact fun block blockInside => ⟨Text.contains_nil, blockInside⟩
          | cons => trivial
      | _ => trivial

theorem readStatement_inside {rule : Rule} (here : source.Encloses start stop) :
    Gives (fun statement => source.Contains statement.spans)
      (readStatement source (.node rule start stop trees)) := by
  have name : ∀ tree ∈ trees, source.Encloses (readIdentifier source tree).span.start
      (readIdentifier source tree).span.stop :=
    fun tree member => readIdentifier_inside (inside tree member)
  have path : ∀ tree ∈ trees, Gives (fun path => source.Contains path.spans)
      (readPath source tree) := by
    intro tree member
    have treeInside := inside tree member
    obtain ⟨rule, start, stop, children⟩ := tree
    exact readPath_inside (fun _ member => treeInside.child member) treeInside.root.encloses
  cases rule with
  | statement =>
      match trees, inside with
      | [child], inside => exact (inside child (by simp)).root.reads.statement
      | [], _ | _ :: _ :: _, _ => trivial
  | importStatement =>
      match trees, path with
      | [child], path =>
          apply Gives.bind (path child (by simp))
          exact fun path pathInside => Text.contains_cons.mpr ⟨here, pathInside⟩
      | [], _ | _ :: _ :: _, _ => trivial
  | delayStatement | returnStatement | raiseStatement | expressionStatement =>
      match trees, inside with
      | [value], inside =>
          apply Gives.bind (inside value (by simp)).root.reads.expr
          exact fun expr exprInside => Text.contains_cons.mpr ⟨here, exprInside⟩
      | [], _ | _ :: _ :: _, _ => trivial
  | breakStatement => exact Text.contains_cons.mpr ⟨here, Text.contains_nil⟩
  | variableDeclaration =>
      match trees, inside, name with
      | [first, second], _, name =>
          exact Text.contains_cons.mpr ⟨here, Text.contains_cons.mpr ⟨name first (by simp),
            Text.contains_cons.mpr ⟨name second (by simp), Text.contains_nil⟩⟩⟩
      | [first, second, value], inside, name =>
          apply Gives.bind (inside value (by simp)).root.reads.expr
          intro expr exprInside
          exact Text.contains_cons.mpr ⟨here, Text.contains_cons.mpr ⟨name first (by simp),
            Text.contains_cons.mpr ⟨name second (by simp),
              Text.contains_append.mpr ⟨exprInside, Text.contains_nil⟩⟩⟩⟩
      | [], _, _ | [_], _, _ | _ :: _ :: _ :: _ :: _, _, _ => trivial
  | assignment =>
      match trees, inside, path with
      | [target, value], inside, path =>
          apply Gives.bind (path target (by simp))
          intro path pathInside
          apply Gives.bind (inside value (by simp)).root.reads.expr
          exact fun expr exprInside => Text.contains_cons.mpr
            ⟨here, Text.contains_append.mpr ⟨pathInside, exprInside⟩⟩
      | [], _, _ | [_], _, _ | _ :: _ :: _ :: _, _, _ => trivial
  | ifStatement =>
      match trees, inside with
      | [], _ => trivial
      | first :: rest, inside =>
          obtain ⟨firstInside, restInside⟩ := List.forall_mem_cons.mp inside
          apply Gives.bind firstInside.root.reads.conditional
          intro conditional conditionalInside
          apply Gives.bind (readBranches_inside restInside)
          exact fun branches branchesInside => Text.contains_cons.mpr
            ⟨here, Text.contains_append.mpr ⟨conditionalInside,
              Text.contains_append.mpr branchesInside⟩⟩
  | repeatStatement =>
      match trees, inside with
      | [body], inside =>
          apply Gives.bind (inside body (by simp)).root.reads.block
          exact fun block blockInside => Text.contains_cons.mpr ⟨here, blockInside⟩
      | [], _ | _ :: _ :: _, _ => trivial
  | workflowDefinition =>
      match trees, inside, name with
      | [first, body], inside, name =>
          apply Gives.bind (inside body (by simp)).root.reads.block
          exact fun block blockInside => Text.contains_cons.mpr
            ⟨here, Text.contains_cons.mpr ⟨name first (by simp),
              Text.contains_append.mpr ⟨Text.contains_nil, blockInside⟩⟩⟩
      | [first, .node rule start stop children, body], inside, name =>
          have signed := inside (.node rule start stop children) (by simp)
          apply Gives.bind (readSignature_inside (fun _ member => signed.child member)
            signed.root.encloses)
          intro signature signatureInside
          apply Gives.bind (inside body (by simp)).root.reads.block
          intro block blockInside
          exact Text.contains_cons.mpr ⟨here, Text.contains_cons.mpr ⟨name first (by simp),
            Text.contains_append.mpr ⟨Text.contains_append.mpr
              ⟨signatureInside, Text.contains_nil⟩, blockInside⟩⟩⟩
      | [], _, _ | [_], _, _ | _ :: _ :: _ :: _ :: _, _, _ => trivial
  | _ => trivial

end

/-- Whatever is read from a tree in the text has spans in the text. -/
theorem inside_of_placed {tree : Tree} (placed : tree.Placed source) :
    tree.All (Inside source) := by
  have both : tree.All fun other =>
      source.Encloses other.start other.stop ∧ ReadsInside source other := by
    apply placed.strengthen
    intro tree here children
    obtain ⟨rule, start, stop, trees⟩ := tree
    have inside : ∀ child ∈ trees, child.All (Inside source) :=
      fun child member => (children child member).imp fun _ parts => ⟨parts.1, parts.2⟩
    exact ⟨readExpr_inside inside here, readStatement_inside inside here,
      readBlock_inside inside here, readConditional_inside inside here⟩
  exact both.imp fun _ parts => ⟨parts.1, parts.2⟩

theorem readScript_inside {tree : Tree} (placed : tree.Placed source) :
    Gives (fun script => source.Contains script.spans) (readScript source tree) := by
  have inside := inside_of_placed placed
  apply Gives.bind (readStatements_inside fun _ member => inside.child member)
  exact fun statements statementsInside =>
    Text.contains_cons.mpr ⟨inside.root.encloses, statementsInside⟩

end Ast

/-- The nodes of a tree that the grammar finds stand in the text. -/
theorem parseTree_placed {start : Grammar.Rule} {source : Text} {tree : Ast.Tree}
    (parsed : parseTree start source = .ok tree) : tree.Placed source := by
  obtain ⟨cursor, tokens, yields⟩ := parseTree_yields parsed
  have begins : Grammar.Cursor.Advances source ⟨source, 0⟩ ⟨source, 0⟩ :=
    ⟨[], [], source, rfl, rfl, rfl⟩
  exact (yields.placed begins _ rfl).nodes tree List.mem_cons_self

/-- All spans of a script are stretches of the text it was read from. -/
theorem parseScript_inside {source : Text} {script : Script}
    (parsed : parseScript source = .ok script) : source.Contains script.spans := by
  obtain ⟨tree, found, read⟩ := parseScript_eq_ok.mp parsed
  have gives := Ast.readScript_inside (parseTree_placed found)
  rwa [read] at gives

end FlowScript
