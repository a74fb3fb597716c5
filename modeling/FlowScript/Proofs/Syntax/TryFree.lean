import FlowScript.Proofs.Syntax.Introduction

/-!
# Syntax without `try`

Expressions, statements and workflows in which no `try` occurs at any depth.
-/

set_option autoImplicit false

namespace FlowScript

inductive Expr.TryFree : Expr → Prop where
  | literal {value : Literal} {span : Span} : TryFree (.literal value span)
  | path {name : Path} : TryFree (.path name)
  | call {callee : Path} {arguments : List Argument} {argumentsSpan span : Span} :
      (∀ argument ∈ arguments, TryFree argument.value) →
      TryFree (.call callee arguments argumentsSpan span)
  | array {elements : List Expr} {span : Span} :
      (∀ element ∈ elements, TryFree element) → TryFree (.array elements span)
  | dictionary {entries : List Entry} {span : Span} :
      (∀ entry ∈ entries, TryFree entry.value) → TryFree (.dictionary entries span)
  | unary {op : UnaryOperator} {operand : Expr} {span : Span} :
      TryFree operand → TryFree (.unary op operand span)
  | chain {first : Expr} {operations : List Operation} {span : Span} :
      TryFree first → (∀ operation ∈ operations, TryFree operation.operand) →
      TryFree (.chain first operations span)
  | await {operand duration : Expr} {span : Span} :
      TryFree operand → TryFree duration → TryFree (.await operand duration span)

inductive Statement.TryFree : Statement → Prop where
  | importing {path : Path} {span : Span} : TryFree (.importing path span)
  | declaration {name typeName : Identifier} {value : Option Expr} {span : Span} :
      (∀ expr, value = some expr → expr.TryFree) →
      TryFree (.declaration name typeName value span)
  | assignment {target : Path} {value : Expr} {span : Span} :
      value.TryFree → TryFree (.assignment target value span)
  | delay {duration : Expr} {span : Span} : duration.TryFree → TryFree (.delay duration span)
  | returning {value : Expr} {span : Span} : value.TryFree → TryFree (.returning value span)
  | raising {value : Expr} {span : Span} : value.TryFree → TryFree (.raising value span)
  | breaking {span : Span} : TryFree (.breaking span)
  | expression {value : Expr} {span : Span} : value.TryFree → TryFree (.expression value span)
  | branch {first : Conditional} {others : List Conditional} {otherwise : Option Block}
      {span : Span} :
      (∀ branch ∈ first :: others, branch.condition.TryFree) →
      (∀ branch ∈ first :: others, ∀ statement ∈ branch.body.statements, TryFree statement) →
      (∀ block, otherwise = some block → ∀ statement ∈ block.statements, TryFree statement) →
      TryFree (.branch first others otherwise span)
  | loop {body : Block} {span : Span} :
      (∀ statement ∈ body.statements, TryFree statement) → TryFree (.loop body span)
  | workflow {definition : Workflow} :
      (∀ statement ∈ definition.body.statements, TryFree statement) →
      TryFree (.workflow definition)

def TryFreeStatements (statements : List Statement) : Prop :=
  ∀ statement ∈ statements, statement.TryFree

def Workflow.TryFree (definition : Workflow) : Prop :=
  TryFreeStatements definition.body.statements

theorem Statement.TryFree.introduces {statement : Statement} {definition : Workflow}
    (tryFree : statement.TryFree) (introduces : statement.Introduces definition) :
    definition.TryFree := by
  induction introduces with
  | here =>
      cases tryFree with
      | workflow body => exact body
  | branch member inBody _ ih =>
      cases tryFree with
      | branch _ bodies _ => exact ih (bodies _ member _ inBody)
  | otherwise inBody _ ih =>
      cases tryFree with
      | branch _ _ last => exact ih (last _ rfl _ inBody)
  | loop inBody _ ih =>
      cases tryFree with
      | loop body => exact ih (body _ inBody)

theorem TryFreeStatements.admitted {statements : List Statement}
    (tryFree : TryFreeStatements statements) :
    StatementsAdmitted Workflow.TryFree statements :=
  fun statement member _ introduces => (tryFree statement member).introduces introduces

theorem closed_tryFree : ClosedWorkflows Workflow.TryFree :=
  fun _ tryFree => TryFreeStatements.admitted tryFree

end FlowScript
