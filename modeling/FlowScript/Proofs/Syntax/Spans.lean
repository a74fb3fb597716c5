import FlowScript.Ast.Basic
import Mathlib.Data.List.Basic

/-!
# The spans of a syntax tree

All spans of the nodes of a tree: of its expressions, statements and names, and of
single operations, arguments and entries.
-/

set_option autoImplicit false

namespace FlowScript

def Path.spans (path : Path) : List Span := path.span :: path.segments.map (·.span)

mutual

def Expr.spans (expr : Expr) : List Span :=
  match expr with
  | .literal _ span => [span]
  | .path name => name.spans
  | .call callee arguments _ span => span :: (callee.spans ++ Argument.allSpans arguments)
  | .array elements span => span :: Expr.allSpans elements
  | .dictionary entries span => span :: Entry.allSpans entries
  | .unary _ operand span => span :: operand.spans
  | .chain first operations span => span :: (first.spans ++ Operation.allSpans operations)
  | .await operand duration span => span :: (operand.spans ++ duration.spans)
  | .attempt operand span => span :: operand.spans
termination_by structural expr

def Expr.allSpans (exprs : List Expr) : List Span :=
  match exprs with
  | [] => []
  | expr :: rest => expr.spans ++ Expr.allSpans rest
termination_by structural exprs

def Argument.allSpans (arguments : List Argument) : List Span :=
  match arguments with
  | [] => []
  | ⟨name, value, span⟩ :: rest =>
      span :: (name.toList.map (·.span) ++ (value.spans ++ Argument.allSpans rest))
termination_by structural arguments

def Entry.allSpans (entries : List Entry) : List Span :=
  match entries with
  | [] => []
  | ⟨key, value, span⟩ :: rest => span :: key.span :: (value.spans ++ Entry.allSpans rest)
termination_by structural entries

def Operation.allSpans (operations : List Operation) : List Span :=
  match operations with
  | [] => []
  | ⟨_, operand, span⟩ :: rest => span :: (operand.spans ++ Operation.allSpans rest)
termination_by structural operations

end

theorem Expr.span_mem (expr : Expr) : expr.span ∈ expr.spans := by
  cases expr <;> simp [Expr.span, Expr.spans, Path.spans]

def Parameter.spans (parameter : Parameter) : List Span :=
  [parameter.span, parameter.name.span, parameter.typeName.span]

def Signature.spans (signature : Signature) : List Span :=
  signature.span ::
    (signature.parameters.flatMap (·.spans) ++ signature.returnType.toList.map (·.span))

mutual

def Statement.spans (statement : Statement) : List Span :=
  match statement with
  | .importing path span => span :: path.spans
  | .declaration name typeName value span =>
      span :: name.span :: typeName.span :: value.toList.flatMap (·.spans)
  | .assignment target value span => span :: (target.spans ++ value.spans)
  | .delay duration span => span :: duration.spans
  | .returning value span => span :: value.spans
  | .raising value span => span :: value.spans
  | .breaking span => [span]
  | .expression value span => span :: value.spans
  | .branch first others otherwise span =>
      span :: (first.spans ++ (Conditional.allSpans others ++ Block.optionalSpans otherwise))
  | .loop body span => span :: body.spans
  | .workflow definition => definition.spans
termination_by structural statement

def Statement.allSpans (statements : List Statement) : List Span :=
  match statements with
  | [] => []
  | statement :: rest => statement.spans ++ Statement.allSpans rest
termination_by structural statements

def Block.spans (block : Block) : List Span :=
  match block with
  | ⟨statements, span⟩ => span :: Statement.allSpans statements
termination_by structural block

def Block.optionalSpans (block : Option Block) : List Span :=
  match block with
  | some block => block.spans
  | none => []
termination_by structural block

def Conditional.spans (conditional : Conditional) : List Span :=
  match conditional with
  | ⟨condition, body, span⟩ => span :: (condition.spans ++ body.spans)
termination_by structural conditional

def Conditional.allSpans (conditionals : List Conditional) : List Span :=
  match conditionals with
  | [] => []
  | conditional :: rest => conditional.spans ++ Conditional.allSpans rest
termination_by structural conditionals

def Workflow.spans (workflow : Workflow) : List Span :=
  match workflow with
  | ⟨name, signature, body, span⟩ =>
      span :: name.span :: (signature.toList.flatMap (·.spans) ++ body.spans)
termination_by structural workflow

end

def Script.spans (script : Script) : List Span :=
  script.span :: Statement.allSpans script.statements

/-! ## Trees with known spans only -/

section

variable {known : List Span}

theorem Block.statements_subset {block : Block} (spans : block.spans ⊆ known) :
    Statement.allSpans block.statements ⊆ known := by
  obtain ⟨statements, span⟩ := block
  simp only [Block.spans, List.cons_subset] at spans
  exact spans.2

theorem Workflow.body_subset {definition : Workflow} (spans : definition.spans ⊆ known) :
    Statement.allSpans definition.body.statements ⊆ known := by
  obtain ⟨name, signature, body, span⟩ := definition
  simp only [Workflow.spans, List.cons_subset, List.append_subset] at spans
  exact Block.statements_subset spans.2.2.2

theorem Workflow.parameter_subset {definition : Workflow} {parameter : Parameter}
    (spans : definition.spans ⊆ known) (member : parameter ∈ definition.parameters) :
    parameter.spans ⊆ known := by
  obtain ⟨name, signature, body, span⟩ := definition
  simp only [Workflow.spans, List.cons_subset, List.append_subset] at spans
  cases signature with
  | none => cases member
  | some signature =>
      intro other inside
      apply spans.2.2.1
      simp only [Option.toList_some, List.flatMap_cons, Signature.spans, List.mem_append,
        List.mem_cons, List.mem_flatMap]
      exact .inl (.inr (.inl ⟨parameter, member, inside⟩))

theorem Workflow.returnType_mem {definition : Workflow} {name : Identifier}
    (spans : definition.spans ⊆ known) (declared : definition.returnType = some name) :
    name.span ∈ known := by
  obtain ⟨other, signature, body, span⟩ := definition
  simp only [Workflow.spans, List.cons_subset, List.append_subset] at spans
  obtain ⟨found, rfl, returns⟩ := Option.bind_eq_some_iff.mp declared
  apply spans.2.2.1
  simp [Signature.spans, returns]

end

end FlowScript
