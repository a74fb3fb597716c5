import FlowScript.Ast.Operator
import FlowScript.Source.Span
import FlowScript.Time.Duration

/-!
# Syntax trees

The tree a script is read into. Every node carries the span it was read from.
A dotted path has at least one segment by construction.
-/

set_option autoImplicit false

namespace FlowScript

/-- A name and where it stands. -/
structure Identifier where
  name : String
  span : Span
  deriving DecidableEq, Repr

/-- A dotted name: a first segment and the segments after it. -/
structure Path where
  head : Identifier
  tail : List Identifier
  span : Span
  deriving DecidableEq, Repr

namespace Path

def segments (path : Path) : List Identifier := path.head :: path.tail

def render (path : Path) : String :=
  ".".intercalate (path.segments.map (·.name))

/-- The segments before the last one, and the last one. -/
def splitLast (path : Path) : List Identifier × Identifier :=
  (path.segments.dropLast, path.segments.getLast (by simp [segments]))

end Path

inductive Literal where
  | string (value : String)
  | boolean (value : Bool)
  | integer (value : Int64)
  | real (value : Float)
  | duration (value : Duration)

mutual

inductive Expr where
  | literal (value : Literal) (span : Span)
  | path (name : Path)
  | call (callee : Path) (arguments : List Argument) (argumentsSpan span : Span)
  | array (elements : List Expr) (span : Span)
  | dictionary (entries : List Entry) (span : Span)
  | unary (op : UnaryOperator) (operand : Expr) (span : Span)
  /-- A first operand and operations applied to it from left to right. -/
  | chain (first : Expr) (operations : List Operation) (span : Span)
  /-- Waits for the operand, at most for the duration. -/
  | await (operand duration : Expr) (span : Span)
  /-- Makes the enclosing function return the operand if that is an error. -/
  | attempt (operand : Expr) (span : Span)

/-- An argument of a call, with a name or without. -/
structure Argument where
  name : Option Identifier
  value : Expr
  span : Span

structure Entry where
  key : Identifier
  value : Expr
  span : Span

/-- An operator with its right operand. -/
structure Operation where
  op : BinaryOperator
  operand : Expr
  span : Span

end

def Expr.span : Expr → Span
  | .literal _ span => span
  | .path name => name.span
  | .call _ _ _ span => span
  | .array _ span => span
  | .dictionary _ span => span
  | .unary _ _ span => span
  | .chain _ _ span => span
  | .await _ _ span => span
  | .attempt _ span => span

/-- A parameter of a workflow and the name of its type. -/
structure Parameter where
  name : Identifier
  typeName : Identifier
  span : Span
  deriving DecidableEq, Repr

/-- The parameters of a workflow and the name of the type it returns. -/
structure Signature where
  parameters : List Parameter
  returnType : Option Identifier
  span : Span
  deriving DecidableEq, Repr

mutual

inductive Statement where
  | importing (path : Path) (span : Span)
  | declaration (name typeName : Identifier) (value : Option Expr) (span : Span)
  | assignment (target : Path) (value : Expr) (span : Span)
  | delay (duration : Expr) (span : Span)
  | returning (value : Expr) (span : Span)
  | raising (value : Expr) (span : Span)
  | breaking (span : Span)
  | expression (value : Expr) (span : Span)
  | branch (first : Conditional) (others : List Conditional) (otherwise : Option Block)
      (span : Span)
  | loop (body : Block) (span : Span)
  | workflow (definition : Workflow)

/-- Statements between braces. -/
structure Block where
  statements : List Statement
  span : Span

/-- A block that runs under a condition. -/
structure Conditional where
  condition : Expr
  body : Block
  span : Span

structure Workflow where
  name : Identifier
  signature : Option Signature
  body : Block
  span : Span

end

def Statement.span : Statement → Span
  | .importing _ span => span
  | .declaration _ _ _ span => span
  | .assignment _ _ span => span
  | .delay _ span => span
  | .returning _ span => span
  | .raising _ span => span
  | .breaking span => span
  | .expression _ span => span
  | .branch _ _ _ span => span
  | .loop _ span => span
  | .workflow definition => definition.span

namespace Workflow

/-- The declared parameters; a workflow without a signature has none. -/
def parameters (workflow : Workflow) : List Parameter :=
  (workflow.signature.map (·.parameters)).getD []

/-- The declared return type, if there is one. -/
def returnType (workflow : Workflow) : Option Identifier :=
  workflow.signature.bind (·.returnType)

end Workflow

structure Script where
  statements : List Statement
  span : Span

end FlowScript
