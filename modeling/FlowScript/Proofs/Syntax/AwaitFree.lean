import FlowScript.Ast.Basic

/-!
# Syntax without `await`

Expressions, statements and scripts in which no `await` occurs at any depth, the
bodies of workflows included.
-/

set_option autoImplicit false

namespace FlowScript

inductive Expr.AwaitFree : Expr → Prop where
  | literal {value : Literal} {span : Span} : AwaitFree (.literal value span)
  | path {name : Path} : AwaitFree (.path name)
  | call {callee : Path} {arguments : List Argument} {argumentsSpan span : Span} :
      (∀ argument ∈ arguments, AwaitFree argument.value) →
      AwaitFree (.call callee arguments argumentsSpan span)
  | array {elements : List Expr} {span : Span} :
      (∀ element ∈ elements, AwaitFree element) → AwaitFree (.array elements span)
  | dictionary {entries : List Entry} {span : Span} :
      (∀ entry ∈ entries, AwaitFree entry.value) → AwaitFree (.dictionary entries span)
  | unary {op : UnaryOperator} {operand : Expr} {span : Span} :
      AwaitFree operand → AwaitFree (.unary op operand span)
  | chain {first : Expr} {operations : List Operation} {span : Span} :
      AwaitFree first → (∀ operation ∈ operations, AwaitFree operation.operand) →
      AwaitFree (.chain first operations span)
  | attempt {operand : Expr} {span : Span} :
      AwaitFree operand → AwaitFree (.attempt operand span)

inductive Statement.AwaitFree : Statement → Prop where
  | importing {path : Path} {span : Span} : AwaitFree (.importing path span)
  | declaration {name typeName : Identifier} {value : Option Expr} {span : Span} :
      (∀ expr, value = some expr → expr.AwaitFree) →
      AwaitFree (.declaration name typeName value span)
  | assignment {target : Path} {value : Expr} {span : Span} :
      value.AwaitFree → AwaitFree (.assignment target value span)
  | delay {duration : Expr} {span : Span} : duration.AwaitFree → AwaitFree (.delay duration span)
  | returning {value : Expr} {span : Span} : value.AwaitFree → AwaitFree (.returning value span)
  | raising {value : Expr} {span : Span} : value.AwaitFree → AwaitFree (.raising value span)
  | breaking {span : Span} : AwaitFree (.breaking span)
  | expression {value : Expr} {span : Span} : value.AwaitFree → AwaitFree (.expression value span)
  | branch {first : Conditional} {others : List Conditional} {otherwise : Option Block}
      {span : Span} :
      (∀ branch ∈ first :: others, branch.condition.AwaitFree) →
      (∀ branch ∈ first :: others, ∀ statement ∈ branch.body.statements, AwaitFree statement) →
      (∀ block, otherwise = some block → ∀ statement ∈ block.statements, AwaitFree statement) →
      AwaitFree (.branch first others otherwise span)
  | loop {body : Block} {span : Span} :
      (∀ statement ∈ body.statements, AwaitFree statement) → AwaitFree (.loop body span)
  | workflow {definition : Workflow} :
      (∀ statement ∈ definition.body.statements, AwaitFree statement) →
      AwaitFree (.workflow definition)

def Script.AwaitFree (script : Script) : Prop :=
  ∀ statement ∈ script.statements, statement.AwaitFree

end FlowScript
