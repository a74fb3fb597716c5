import FlowScript.Ast.Basic

/-!
# Syntax trees without spans

A tree with every span replaced by the same one. Two trees are equal apart from their
spans when they are equal without them.
-/

set_option autoImplicit false

namespace FlowScript

def Identifier.unlocated (identifier : Identifier) : Identifier := ⟨identifier.name, .origin⟩

def Path.unlocated (path : Path) : Path :=
  ⟨path.head.unlocated, path.tail.map (·.unlocated), .origin⟩

mutual

def Expr.unlocated (expr : Expr) : Expr :=
  match expr with
  | .literal value _ => .literal value .origin
  | .path name => .path name.unlocated
  | .call callee arguments _ _ =>
      .call callee.unlocated (Argument.allUnlocated arguments) .origin .origin
  | .array elements _ => .array (Expr.allUnlocated elements) .origin
  | .dictionary entries _ => .dictionary (Entry.allUnlocated entries) .origin
  | .unary op operand _ => .unary op operand.unlocated .origin
  | .chain first operations _ =>
      .chain first.unlocated (Operation.allUnlocated operations) .origin
  | .await operand duration _ => .await operand.unlocated duration.unlocated .origin
  | .attempt operand _ => .attempt operand.unlocated .origin
termination_by structural expr

def Expr.allUnlocated (exprs : List Expr) : List Expr :=
  match exprs with
  | [] => []
  | expr :: rest => expr.unlocated :: Expr.allUnlocated rest
termination_by structural exprs

def Argument.allUnlocated (arguments : List Argument) : List Argument :=
  match arguments with
  | [] => []
  | ⟨name, value, _⟩ :: rest =>
      ⟨name.map (·.unlocated), value.unlocated, .origin⟩ :: Argument.allUnlocated rest
termination_by structural arguments

def Entry.allUnlocated (entries : List Entry) : List Entry :=
  match entries with
  | [] => []
  | ⟨key, value, _⟩ :: rest =>
      ⟨key.unlocated, value.unlocated, .origin⟩ :: Entry.allUnlocated rest
termination_by structural entries

def Operation.allUnlocated (operations : List Operation) : List Operation :=
  match operations with
  | [] => []
  | ⟨op, operand, _⟩ :: rest =>
      ⟨op, operand.unlocated, .origin⟩ :: Operation.allUnlocated rest
termination_by structural operations

end

def Parameter.unlocated (parameter : Parameter) : Parameter :=
  ⟨parameter.name.unlocated, parameter.typeName.unlocated, .origin⟩

def Signature.unlocated (signature : Signature) : Signature :=
  ⟨signature.parameters.map (·.unlocated), signature.returnType.map (·.unlocated), .origin⟩

mutual

def Statement.unlocated (statement : Statement) : Statement :=
  match statement with
  | .importing path _ => .importing path.unlocated .origin
  | .declaration name typeName value _ =>
      .declaration name.unlocated typeName.unlocated (value.map (·.unlocated)) .origin
  | .assignment target value _ => .assignment target.unlocated value.unlocated .origin
  | .delay duration _ => .delay duration.unlocated .origin
  | .returning value _ => .returning value.unlocated .origin
  | .raising value _ => .raising value.unlocated .origin
  | .breaking _ => .breaking .origin
  | .expression value _ => .expression value.unlocated .origin
  | .branch first others otherwise _ =>
      .branch first.unlocated (Conditional.allUnlocated others) (Block.optionalUnlocated otherwise)
        .origin
  | .loop body _ => .loop body.unlocated .origin
  | .workflow ⟨name, signature, body, _⟩ =>
      .workflow ⟨name.unlocated, signature.map (·.unlocated), body.unlocated, .origin⟩
termination_by structural statement

def Statement.allUnlocated (statements : List Statement) : List Statement :=
  match statements with
  | [] => []
  | statement :: rest => statement.unlocated :: Statement.allUnlocated rest
termination_by structural statements

def Block.unlocated (block : Block) : Block :=
  match block with
  | ⟨statements, _⟩ => ⟨Statement.allUnlocated statements, .origin⟩
termination_by structural block

def Block.optionalUnlocated (block : Option Block) : Option Block :=
  match block with
  | some block => some block.unlocated
  | none => none
termination_by structural block

def Conditional.unlocated (conditional : Conditional) : Conditional :=
  match conditional with
  | ⟨condition, body, _⟩ => ⟨condition.unlocated, body.unlocated, .origin⟩
termination_by structural conditional

def Conditional.allUnlocated (conditionals : List Conditional) : List Conditional :=
  match conditionals with
  | [] => []
  | conditional :: rest => conditional.unlocated :: Conditional.allUnlocated rest
termination_by structural conditionals

end

theorem Statement.allUnlocated_eq (statements : List Statement) :
    Statement.allUnlocated statements = statements.map Statement.unlocated := by
  induction statements with
  | nil => rfl
  | cons statement rest ih => simp only [Statement.allUnlocated, List.map_cons, ih]

/-- The statements of a script without spans. -/
def Script.unlocated (script : Script) : List Statement :=
  script.statements.map Statement.unlocated

end FlowScript
