import FlowScript.Ast.Basic
import FlowScript.Json

/-!
# Syntax trees as JSON

Every expression and statement is an object whose member `t` names its form.
Parts that a node does not have are `null`.
-/

set_option autoImplicit false

namespace FlowScript

def Json.ofNat (value : Nat) : Json := .integer value

def Span.toJson (span : Span) : Json :=
  .object [("start", .ofNat span.start), ("end", .ofNat span.stop),
    ("start_line", .ofNat span.startLine), ("start_col", .ofNat span.startColumn),
    ("end_line", .ofNat span.stopLine), ("end_col", .ofNat span.stopColumn)]

def UnaryOperator.label : UnaryOperator → String
  | .plus => "Plus"
  | .minus => "Minus"
  | .not => "Not"

def BinaryOperator.label : BinaryOperator → String
  | .times => "Mult"
  | .divide => "Div"
  | .plus => "Plus"
  | .minus => "Minus"
  | .less => "Less"
  | .lessEqual => "LessEq"
  | .greater => "Greater"
  | .greaterEqual => "GreaterEq"
  | .equal => "Eq"
  | .notEqual => "NotEq"
  | .isIn => "In"
  | .isA => "Is"
  | .and => "And"
  | .or => "Or"

def Identifier.toJson (identifier : Identifier) : Json :=
  .object [("name", .string identifier.name), ("span", identifier.span.toJson)]

def Path.members (path : Path) : JsonObject :=
  [("segments", .array (path.segments.map (·.toJson))), ("span", path.span.toJson)]

def Literal.toJson : Literal → Json
  | .string value => .object [("kind", .string "String"), ("value", .string value)]
  | .boolean value => .object [("kind", .string "Boolean"), ("value", .bool value)]
  | .integer value => .object [("kind", .string "Integer"), ("value", .integer value.toInt)]
  | .real value => .object [("kind", .string "Real"), ("value", .real value)]
  | .duration value =>
      .object [("kind", .string "Duration"), ("value", .object
        [("count", .ofNat value.count.toNat), ("unit", .string value.unit.name)])]

/-- An object that begins with the name of its form. -/
def Json.tagged (form : String) (members : JsonObject) : Json :=
  .object (("t", .string form) :: members)

mutual

def Expr.toJson (expr : Expr) : Json :=
  match expr with
  | .literal value span => .tagged "Literal" [("value", value.toJson), ("span", span.toJson)]
  | .path name => .tagged "Path" name.members
  | .call callee arguments argumentsSpan span =>
      .tagged "Call" [("path", .object callee.members),
        ("arguments", .array (Argument.listToJson arguments)),
        ("arguments_span", argumentsSpan.toJson), ("span", span.toJson)]
  | .array elements span =>
      .tagged "Array" [("elements", .array (Expr.listToJson elements)), ("span", span.toJson)]
  | .dictionary entries span =>
      .tagged "Dictionary" [("entries", .array (Entry.listToJson entries)),
        ("span", span.toJson)]
  | .unary op operand span =>
      .tagged "Unary" [("op", .string op.label), ("operand", operand.toJson),
        ("span", span.toJson)]
  | .chain first operations span =>
      .tagged "Binary" [("first", first.toJson),
        ("operations", .array (Operation.listToJson operations)), ("span", span.toJson)]
  | .await operand duration span =>
      .tagged "Await" [("expression", operand.toJson), ("duration", duration.toJson),
        ("span", span.toJson)]
  | .attempt operand span =>
      .tagged "Try" [("expression", operand.toJson), ("span", span.toJson)]
termination_by structural expr

def Expr.listToJson (exprs : List Expr) : List Json :=
  match exprs with
  | [] => []
  | expr :: rest => expr.toJson :: Expr.listToJson rest
termination_by structural exprs

def Argument.listToJson (arguments : List Argument) : List Json :=
  match arguments with
  | [] => []
  | ⟨name, value, span⟩ :: rest =>
      .object [("name", (name.map Identifier.toJson).getD .null), ("value", value.toJson),
        ("span", span.toJson)] :: Argument.listToJson rest
termination_by structural arguments

def Entry.listToJson (entries : List Entry) : List Json :=
  match entries with
  | [] => []
  | ⟨key, value, span⟩ :: rest =>
      .object [("key", key.toJson), ("value", value.toJson), ("span", span.toJson)]
        :: Entry.listToJson rest
termination_by structural entries

def Operation.listToJson (operations : List Operation) : List Json :=
  match operations with
  | [] => []
  | ⟨op, operand, span⟩ :: rest =>
      .object [("op", .string op.label), ("operand", operand.toJson), ("span", span.toJson)]
        :: Operation.listToJson rest
termination_by structural operations

end

def Parameter.toJson (parameter : Parameter) : Json :=
  .object [("name", parameter.name.toJson), ("type_name", parameter.typeName.toJson),
    ("span", parameter.span.toJson)]

def Signature.toJson (signature : Signature) : Json :=
  .object [("parameters", .array (signature.parameters.map Parameter.toJson)),
    ("return_type", (signature.returnType.map Identifier.toJson).getD .null),
    ("span", signature.span.toJson)]

mutual

def Statement.toJson (statement : Statement) : Json :=
  match statement with
  | .importing path span =>
      .tagged "Import" [("path", .object path.members), ("span", span.toJson)]
  | .declaration name typeName value span =>
      .tagged "Declaration" [("name", name.toJson), ("type_name", typeName.toJson),
        ("value", (value.map Expr.toJson).getD .null), ("span", span.toJson)]
  | .assignment target value span =>
      .tagged "Assignment" [("target", .object target.members), ("value", value.toJson),
        ("span", span.toJson)]
  | .delay duration span =>
      .tagged "Delay" [("duration", duration.toJson), ("span", span.toJson)]
  | .returning value span => .tagged "Return" [("value", value.toJson), ("span", span.toJson)]
  | .raising value span => .tagged "Raise" [("value", value.toJson), ("span", span.toJson)]
  | .breaking span => .tagged "Break" [("span", span.toJson)]
  | .expression value span =>
      .tagged "Expression" [("expression", value.toJson), ("span", span.toJson)]
  | .branch first others otherwise span =>
      .tagged "If" [("if_block", first.toJson),
        ("elif_blocks", .array (Conditional.listToJson others)),
        ("else_block", match otherwise with
          | some block => block.toJson
          | none => .null),
        ("span", span.toJson)]
  | .loop body span => .tagged "Repeat" [("body", body.toJson), ("span", span.toJson)]
  | .workflow ⟨name, signature, body, span⟩ =>
      .tagged "Workflow" [("name", name.toJson),
        ("signature", (signature.map Signature.toJson).getD .null), ("body", body.toJson),
        ("span", span.toJson)]
termination_by structural statement

def Statement.listToJson (statements : List Statement) : List Json :=
  match statements with
  | [] => []
  | statement :: rest => statement.toJson :: Statement.listToJson rest
termination_by structural statements

def Block.toJson (block : Block) : Json :=
  match block with
  | ⟨statements, span⟩ =>
      .object [("statements", .array (Statement.listToJson statements)), ("span", span.toJson)]
termination_by structural block

def Conditional.toJson (conditional : Conditional) : Json :=
  match conditional with
  | ⟨condition, body, span⟩ =>
      .object [("condition", condition.toJson), ("body", body.toJson), ("span", span.toJson)]
termination_by structural conditional

def Conditional.listToJson (conditionals : List Conditional) : List Json :=
  match conditionals with
  | [] => []
  | conditional :: rest => conditional.toJson :: Conditional.listToJson rest
termination_by structural conditionals

end

def Script.toJson (script : Script) : Json :=
  .object [("statements", .array (Statement.listToJson script.statements)),
    ("span", script.span.toJson)]

end FlowScript
