import FlowScript.Ast.Basic
import FlowScript.Proofs.Grammar.Order

/-!
# The layout of a syntax tree

A layout is what is left of a syntax tree without its meaning: the spans of all nodes,
one inside the other, with the text of names and with marks for paths and chains. A
layout is faithful to a text if every span is one of the text, inside the span around it
and behind the spans before it, and if every name is the text at its span.
-/

set_option autoImplicit false

namespace FlowScript

/-- What is known about a node beside its span. -/
inductive Layout.Kind where
  | name (text : String)
  | path
  | chain
  | other
  deriving DecidableEq, Repr

/-- Spans inside of each other. -/
inductive Layout where
  | node (kind : Layout.Kind) (span : Span) (children : List Layout)

namespace Layout

def kind : Layout → Kind
  | .node kind _ _ => kind

def span : Layout → Span
  | .node _ span _ => span

def children : Layout → List Layout
  | .node _ _ children => children

/-- The property holds of the layout and of all layouts in it. -/
inductive All (holds : Layout → Prop) : Layout → Prop where
  | node {kind : Kind} {span : Span} {children : List Layout} :
      holds (.node kind span children) → (∀ child ∈ children, All holds child) →
      All holds (.node kind span children)

theorem All.root {holds : Layout → Prop} {layout : Layout} (all : layout.All holds) :
    holds layout := by
  cases all with
  | node here _ => exact here

theorem All.imp {holds more : Layout → Prop} {layout : Layout} (all : layout.All holds)
    (weaken : ∀ other, holds other → more other) : layout.All more := by
  induction all with
  | node here _ ih => exact .node (weaken _ here) ih

end Layout

/-! ## Layouts of syntax trees -/

def Identifier.layout (identifier : Identifier) : Layout :=
  .node (.name identifier.name) identifier.span []

def Path.layout (path : Path) : Layout :=
  .node .path path.span (path.segments.map Identifier.layout)

mutual

def Expr.layout (expr : Expr) : Layout :=
  match expr with
  | .literal _ span => .node .other span []
  | .path name => name.layout
  | .call callee arguments argumentsSpan span =>
      .node .other span [callee.layout, .node .other argumentsSpan (Argument.layouts arguments)]
  | .array elements span => .node .other span (Expr.layouts elements)
  | .dictionary entries span => .node .other span (Entry.layouts entries)
  | .unary _ operand span => .node .other span [operand.layout]
  | .chain first operations span =>
      .node .chain span (first.layout :: Operation.layouts operations)
  | .await operand duration span => .node .other span [operand.layout, duration.layout]
  | .attempt operand span => .node .other span [operand.layout]
termination_by structural expr

def Expr.layouts (exprs : List Expr) : List Layout :=
  match exprs with
  | [] => []
  | expr :: rest => expr.layout :: Expr.layouts rest
termination_by structural exprs

def Argument.layouts (arguments : List Argument) : List Layout :=
  match arguments with
  | [] => []
  | ⟨name, value, span⟩ :: rest =>
      .node .other span (name.toList.map Identifier.layout ++ [value.layout]) ::
        Argument.layouts rest
termination_by structural arguments

def Entry.layouts (entries : List Entry) : List Layout :=
  match entries with
  | [] => []
  | ⟨key, value, span⟩ :: rest =>
      .node .other span [key.layout, value.layout] :: Entry.layouts rest
termination_by structural entries

def Operation.layouts (operations : List Operation) : List Layout :=
  match operations with
  | [] => []
  | ⟨_, operand, span⟩ :: rest =>
      .node .other span [operand.layout] :: Operation.layouts rest
termination_by structural operations

end

def Parameter.layout (parameter : Parameter) : Layout :=
  .node .other parameter.span [parameter.name.layout, parameter.typeName.layout]

def Signature.layout (signature : Signature) : Layout :=
  .node .other signature.span
    (signature.parameters.map Parameter.layout ++
      signature.returnType.toList.map Identifier.layout)

mutual

def Statement.layout (statement : Statement) : Layout :=
  match statement with
  | .importing path span => .node .other span [path.layout]
  | .declaration name typeName value span =>
      .node .other span (name.layout :: typeName.layout :: value.toList.map Expr.layout)
  | .assignment target value span => .node .other span [target.layout, value.layout]
  | .delay duration span => .node .other span [duration.layout]
  | .returning value span => .node .other span [value.layout]
  | .raising value span => .node .other span [value.layout]
  | .breaking span => .node .other span []
  | .expression value span => .node .other span [value.layout]
  | .branch first others otherwise span =>
      .node .other span
        (first.layout :: (Conditional.layouts others ++ Block.optionalLayouts otherwise))
  | .loop body span => .node .other span [body.layout]
  | .workflow definition => definition.layout
termination_by structural statement

def Statement.layouts (statements : List Statement) : List Layout :=
  match statements with
  | [] => []
  | statement :: rest => statement.layout :: Statement.layouts rest
termination_by structural statements

def Block.layout (block : Block) : Layout :=
  match block with
  | ⟨statements, span⟩ => .node .other span (Statement.layouts statements)
termination_by structural block

def Block.optionalLayouts (block : Option Block) : List Layout :=
  match block with
  | some block => [block.layout]
  | none => []
termination_by structural block

def Conditional.layout (conditional : Conditional) : Layout :=
  match conditional with
  | ⟨condition, body, span⟩ => .node .other span [condition.layout, body.layout]
termination_by structural conditional

def Conditional.layouts (conditionals : List Conditional) : List Layout :=
  match conditionals with
  | [] => []
  | conditional :: rest => conditional.layout :: Conditional.layouts rest
termination_by structural conditionals

def Workflow.layout (workflow : Workflow) : Layout :=
  match workflow with
  | ⟨name, signature, body, span⟩ =>
      .node .other span
        (name.layout :: (signature.toList.map Signature.layout ++ [body.layout]))
termination_by structural workflow

end

def Script.layout (script : Script) : Layout :=
  .node .other script.span (Statement.layouts script.statements)

@[simp] theorem Expr.span_layout (expr : Expr) : expr.layout.span = expr.span := by
  cases expr <;> rfl

/-! ## Faithful layouts -/

/-- Both ends of the span are between characters, in order, and at the lines and columns the
text has there. The spans inside are in order as well, and a name is what stands there. -/
structure Layout.Faithful (source : Text) (layout : Layout) : Prop where
  located : layout.span = source.span layout.span.start layout.span.stop
  enclosed : source.Encloses layout.span.start layout.span.stop
  inside : ∀ child ∈ layout.children,
    layout.span.start ≤ child.span.start ∧ child.span.stop ≤ layout.span.stop
  apart : layout.children.Pairwise fun before behind => before.span.stop ≤ behind.span.start
  named : ∀ text, layout.kind = .name text →
    source.slice? layout.span.start layout.span.stop = some text.toList

/-- A path has a segment, and a chain has an operand and an operation. -/
structure Layout.Complete (layout : Layout) : Prop where
  path : layout.kind = .path → layout.children ≠ []
  chain : layout.kind = .chain → 1 < layout.children.length

def Span.stretch (span : Span) : Grammar.Stretch := ⟨span.start, span.stop⟩

/-- The span from the beginning of one stretch to the end of one that is behind it. -/
theorem Text.span_merge (source : Text) {start middle opening stop : Nat}
    (before : start ≤ opening) (behind : middle ≤ stop) :
    (source.span start middle).merge (source.span opening stop) = source.span start stop := by
  unfold Span.merge
  rw [if_pos (show (source.span start middle).start ≤ (source.span opening stop).start from before)]
  by_cases same : stop ≤ middle
  · rw [if_pos (show (source.span opening stop).stop ≤ (source.span start middle).stop from same),
      Nat.le_antisymm same behind]
  · rw [if_neg (show ¬(source.span opening stop).stop ≤ (source.span start middle).stop from same)]
    rfl

/-- Faithful and complete layouts, one behind the other between two offsets. -/
structure Layout.Row (source : Text) (start stop : Nat) (layouts : List Layout) : Prop where
  ordered : Grammar.InOrder start (layouts.map (·.span.stretch)) stop
  sound : ∀ layout ∈ layouts,
    layout.All fun other => other.Faithful source ∧ other.Complete

namespace Layout.Row

variable {source : Text} {start middle stop : Nat} {layouts others : List Layout}
  {layout : Layout}

theorem nil (le : start ≤ stop) : Row source start stop [] := ⟨le, nofun⟩

theorem append (first : Row source start middle layouts) (second : Row source middle stop others) :
    Row source start stop (layouts ++ others) where
  ordered := by
    rw [List.map_append]
    exact first.ordered.append second.ordered
  sound := List.forall_mem_append.mpr ⟨first.sound, second.sound⟩

theorem cons (first : Row source start middle [layout]) (rest : Row source middle stop others) :
    Row source start stop (layout :: others) :=
  first.append rest

theorem widen {lower upper : Nat} (row : Row source start stop layouts) (before : lower ≤ start)
    (behind : stop ≤ upper) : Row source lower upper layouts :=
  ⟨row.ordered.mono before behind, row.sound⟩

/-- A row inside of a span. -/
theorem node {kind : Kind} (row : Row source start stop layouts)
    (encloses : source.Encloses start stop)
    (named : ∀ text, kind = .name text → source.slice? start stop = some text.toList)
    (complete : (Layout.node kind (source.span start stop) layouts).Complete) :
    Row source start stop [.node kind (source.span start stop) layouts] where
  ordered := ⟨Nat.le_refl _, encloses.start_le_stop, Nat.le_refl _⟩
  sound := by
    intro other member
    rw [List.mem_singleton.mp member]
    refine .node ⟨⟨rfl, encloses, ?_, ?_, named⟩, complete⟩ row.sound
    · exact fun child member => row.ordered.bounds (List.mem_map_of_mem member)
    · exact List.pairwise_map.mp row.ordered.pairwise

/-- A row inside of a span without a mark. -/
theorem other (row : Row source start stop layouts) (encloses : source.Encloses start stop) :
    Row source start stop [.node .other (source.span start stop) layouts] :=
  row.node encloses nofun ⟨nofun, nofun⟩

/-- An operator with the operand behind it. -/
theorem operation {opening closing : Nat} (row : Row source middle stop [layout])
    (between : closing ≤ middle) (operator : source.Encloses opening closing) :
    Row source opening stop
      [.node .other ((source.span opening closing).merge layout.span) [layout]] := by
  have faithful := (row.sound layout List.mem_cons_self).root.1
  obtain ⟨behind, order, upTo⟩ := row.ordered
  have start_le := operator.start_le_stop
  have enclosed := operator.cover faithful.enclosed
  change middle ≤ layout.span.start at behind
  change layout.span.start ≤ layout.span.stop at order
  change layout.span.stop ≤ stop at upTo
  rw [Nat.min_eq_left (by omega), Nat.max_eq_right (by omega)] at enclosed
  have operand : Row source opening layout.span.stop [layout] :=
    ⟨⟨show opening ≤ layout.span.start by omega, order, Nat.le_refl _⟩, row.sound⟩
  rw [faithful.located, source.span_merge (by omega) (by omega)]
  exact (operand.other enclosed).widen (Nat.le_refl _) upTo

end Layout.Row

end FlowScript
