import FlowScript.Ast.Basic
import FlowScript.Grammar.Flow
import FlowScript.Real.Parts

/-!
# From parse trees to syntax trees

Reads the tree that the grammar left for a script. The grammar fixes the shape
of every node, so the only literals that cannot be read are numbers that do not
fit in a word; the first of them in the source is reported.
-/

set_option autoImplicit false

namespace FlowScript

/-- Why a parse tree cannot be read. -/
inductive ReadFault where
  | integerTooLarge (digits : String)
  | durationTooLarge (digits : String)
  /-- The node does not have the shape its rule gives it. -/
  | misshapen
  deriving DecidableEq, Repr

namespace ReadFault

def message : ReadFault → String
  | .integerTooLarge digits =>
      "Failed to parse integer '" ++ digits ++ "': number too large to fit in target type"
  | .durationTooLarge digits =>
      "Invalid duration count '" ++ digits ++ "': number too large to fit in target type"
  | .misshapen => "Unexpected tree shape"

end ReadFault

structure ReadError where
  fault : ReadFault
  span : Span
  deriving DecidableEq, Repr

namespace Ast

open FlowScript.Grammar (Node Rule)

/-- The tree of a script before it is read. -/
abbrev Tree := Node Rule

def spanOf (source : Text) (tree : Tree) : Span := source.span tree.start tree.stop

def textOf (source : Text) (tree : Tree) : String := source.slice tree.start tree.stop

/-- Reports that a node has an impossible shape. -/
def misshapen {α : Type} (source : Text) (start stop : Nat) : Except ReadError α :=
  throw ⟨.misshapen, source.span start stop⟩

/-! ## Names -/

def readIdentifier (source : Text) (tree : Tree) : Identifier :=
  ⟨textOf source tree, spanOf source tree⟩

def readPath (source : Text) (tree : Tree) : Except ReadError Path :=
  match tree.children with
  | head :: tail =>
      pure ⟨readIdentifier source head, tail.map (readIdentifier source), spanOf source tree⟩
  | [] => misshapen source tree.start tree.stop

/-! ## Literals -/

def digitsValue (digits : List Char) : Nat :=
  digits.foldl (fun value char => value * 10 + (char.toNat - '0'.toNat)) 0

/-- The real number nearest to digits with a decimal point among them. -/
def realValue (text : String) : Float :=
  let whole := text.toList.takeWhile (· ≠ '.')
  let fraction := (text.toList.dropWhile (· ≠ '.')).drop 1
  Real.ofDecimal (digitsValue (whole ++ fraction)) (-fraction.length)

/-- Reads an integer literal, which must fit in a signed word. -/
def readInteger (digits : String) : Except ReadFault Literal :=
  match signedOfInt? (digitsValue digits.toList) with
  | some value => .ok (.integer value)
  | none => .error (.integerTooLarge digits)

/-- Reads a duration literal, whose count must fit in a word. -/
def readDuration (count unit : String) : Except ReadFault Literal :=
  match TimeUnit.ofSuffix? unit, wordOfNat? (digitsValue count.toList) with
  | some unit, some count => .ok (.duration ⟨count, unit⟩)
  | some _, none => .error (.durationTooLarge count)
  | none, _ => .error .misshapen

/-- Reads the node inside a literal. -/
def readLiteralValue (source : Text) (tree : Tree) : Except ReadFault Literal :=
  match tree.rule, tree.children with
  | .stringTriple, [content] | .stringSingle, [content] =>
      .ok (.string (textOf source content))
  | .boolean, _ => .ok (.boolean (textOf source tree == "true"))
  | .duration, [count, unit] => readDuration (textOf source count) (textOf source unit)
  | .real, _ => .ok (.real (realValue (textOf source tree)))
  | .integer, _ => readInteger (textOf source tree)
  | _, _ => .error .misshapen

/-- Reads a literal. Faults are reported with the span of the whole literal. -/
def readLiteral (source : Text) (span : Span) (tree : Tree) : Except ReadError Expr :=
  match readLiteralValue source tree with
  | .ok value => pure (.literal value span)
  | .error fault => throw ⟨fault, span⟩

/-! ## Expressions -/

/-- A chain of operations; without any operation it is its first operand. -/
def chainOf (first : Expr) (operations : List Operation) (span : Span) : Expr :=
  if operations.isEmpty then first else .chain first operations span

mutual

def readExpr (source : Text) (tree : Tree) : Except ReadError Expr :=
  match tree with
  | .node rule start stop children =>
      let span := source.span start stop
      match rule with
      | .expression | .primary =>
          match children with
          | [child] => readExpr source child
          | _ => misshapen source start stop
      | .logical | .equality | .relational | .additive | .multiplicative =>
          match children with
          | first :: rest => do
              let first ← readExpr source first
              let operations ← readOperations source start stop rest
              pure (chainOf first operations span)
          | [] => misshapen source start stop
      | .unary =>
          match children with
          | [operand] => readExpr source operand
          | [.node (.unaryOperator op) _ _ _, operand] => do
              let operand ← readExpr source operand
              pure (.unary op operand span)
          | _ => misshapen source start stop
      | .literal =>
          match children with
          | [child] => readLiteral source span child
          | _ => misshapen source start stop
      | .identifierPath => do
          let path ← readPath source (.node rule start stop children)
          pure (.path path)
      | .functionCall =>
          match children with
          | [callee, .node .arguments opening closing arguments] => do
              let callee ← readPath source callee
              let arguments ← readArguments source arguments
              pure (.call callee arguments (source.span opening closing) span)
          | _ => misshapen source start stop
      | .array => do
          let elements ← readExprs source children
          pure (.array elements span)
      | .dictionary => do
          let entries ← readEntries source children
          pure (.dictionary entries span)
      | .awaitExpression =>
          match children with
          | [operand, duration] => do
              let operand ← readExpr source operand
              let duration ← readExpr source duration
              pure (.await operand duration span)
          | _ => misshapen source start stop
      | .tryExpression =>
          match children with
          | [operand] => do
              let operand ← readExpr source operand
              pure (.attempt operand span)
          | _ => misshapen source start stop
      | _ => misshapen source start stop
termination_by structural tree

def readExprs (source : Text) (trees : List Tree) : Except ReadError (List Expr) :=
  match trees with
  | [] => pure []
  | tree :: rest => do
      let expr ← readExpr source tree
      let exprs ← readExprs source rest
      pure (expr :: exprs)
termination_by structural trees

/-- Reads operators and operands by turns. An operation spans both. -/
def readOperations (source : Text) (start stop : Nat) (trees : List Tree) :
    Except ReadError (List Operation) :=
  match trees with
  | [] => pure []
  | .node (.binaryOperator op) opening closing _ :: operand :: rest => do
      let operand ← readExpr source operand
      let operations ← readOperations source start stop rest
      pure (⟨op, operand, (source.span opening closing).merge operand.span⟩ :: operations)
  | _ => misshapen source start stop
termination_by structural trees

def readArguments (source : Text) (trees : List Tree) : Except ReadError (List Argument) :=
  match trees with
  | [] => pure []
  | .node .argument start stop children :: rest => do
      let argument ← match children with
        | [value] => do
            let value ← readExpr source value
            pure ⟨none, value, source.span start stop⟩
        | [name, value] => do
            let value ← readExpr source value
            pure ⟨some (readIdentifier source name), value, source.span start stop⟩
        | _ => misshapen source start stop
      let arguments ← readArguments source rest
      pure (argument :: arguments)
  | other :: _ => misshapen source other.start other.stop
termination_by structural trees

def readEntries (source : Text) (trees : List Tree) : Except ReadError (List Entry) :=
  match trees with
  | [] => pure []
  | .node .dictionaryEntry start stop [key, value] :: rest => do
      let value ← readExpr source value
      let entries ← readEntries source rest
      pure (⟨readIdentifier source key, value, source.span start stop⟩ :: entries)
  | other :: _ => misshapen source other.start other.stop
termination_by structural trees

end

/-! ## Statements -/

def readParameters (source : Text) : List Tree → Except ReadError (List Parameter × List Tree)
  | .node .parameter start stop [name, typeName] :: rest => do
      let (parameters, rest) ← readParameters source rest
      pure (⟨readIdentifier source name, readIdentifier source typeName,
        source.span start stop⟩ :: parameters, rest)
  | rest => pure ([], rest)

def readSignature (source : Text) (tree : Tree) : Except ReadError Signature := do
  let span := spanOf source tree
  let (parameters, rest) ← readParameters source tree.children
  match rest with
  | [] => pure ⟨parameters, none, span⟩
  | [.node .returnType _ _ [name]] =>
      pure ⟨parameters, some (readIdentifier source name), span⟩
  | _ => misshapen source tree.start tree.stop

mutual

def readStatement (source : Text) (tree : Tree) : Except ReadError Statement :=
  match tree with
  | .node rule start stop children =>
      let span := source.span start stop
      match rule with
      | .statement =>
          match children with
          | [child] => readStatement source child
          | _ => misshapen source start stop
      | .importStatement =>
          match children with
          | [path] => do
              let path ← readPath source path
              pure (.importing path span)
          | _ => misshapen source start stop
      | .delayStatement =>
          match children with
          | [duration] => do
              let duration ← readExpr source duration
              pure (.delay duration span)
          | _ => misshapen source start stop
      | .returnStatement =>
          match children with
          | [value] => do
              let value ← readExpr source value
              pure (.returning value span)
          | _ => misshapen source start stop
      | .raiseStatement =>
          match children with
          | [value] => do
              let value ← readExpr source value
              pure (.raising value span)
          | _ => misshapen source start stop
      | .breakStatement => pure (.breaking span)
      | .variableDeclaration =>
          match children with
          | [name, typeName] =>
              pure (.declaration (readIdentifier source name) (readIdentifier source typeName)
                none span)
          | [name, typeName, value] => do
              let value ← readExpr source value
              pure (.declaration (readIdentifier source name) (readIdentifier source typeName)
                (some value) span)
          | _ => misshapen source start stop
      | .assignment =>
          match children with
          | [target, value] => do
              let target ← readPath source target
              let value ← readExpr source value
              pure (.assignment target value span)
          | _ => misshapen source start stop
      | .expressionStatement =>
          match children with
          | [value] => do
              let value ← readExpr source value
              pure (.expression value span)
          | _ => misshapen source start stop
      | .ifStatement =>
          match children with
          | first :: rest => do
              let first ← readConditional source first
              let (others, otherwise) ← readBranches source rest
              pure (.branch first others otherwise span)
          | [] => misshapen source start stop
      | .repeatStatement =>
          match children with
          | [body] => do
              let body ← readBlock source body
              pure (.loop body span)
          | _ => misshapen source start stop
      | .workflowDefinition =>
          match children with
          | [name, body] => do
              let body ← readBlock source body
              pure (.workflow ⟨readIdentifier source name, none, body, span⟩)
          | [name, signature, body] => do
              let signature ← readSignature source signature
              let body ← readBlock source body
              pure (.workflow ⟨readIdentifier source name, some signature, body, span⟩)
          | _ => misshapen source start stop
      | _ => misshapen source start stop
termination_by structural tree

def readStatements (source : Text) (trees : List Tree) : Except ReadError (List Statement) :=
  match trees with
  | [] => pure []
  | tree :: rest => do
      let statement ← readStatement source tree
      let statements ← readStatements source rest
      pure (statement :: statements)
termination_by structural trees

def readBlock (source : Text) (tree : Tree) : Except ReadError Block :=
  match tree with
  | .node _ start stop children => do
      let statements ← readStatements source children
      pure ⟨statements, source.span start stop⟩
termination_by structural tree

def readConditional (source : Text) (tree : Tree) : Except ReadError Conditional :=
  match tree with
  | .node _ start stop [condition, body] => do
      let condition ← readExpr source condition
      let body ← readBlock source body
      pure ⟨condition, body, source.span start stop⟩
  | .node _ start stop _ => misshapen source start stop
termination_by structural tree

/-- Reads the branches after the first: conditional ones, then perhaps a block. -/
def readBranches (source : Text) (trees : List Tree) :
    Except ReadError (List Conditional × Option Block) :=
  match trees with
  | [] => pure ([], none)
  | .node .conditional start stop children :: rest => do
      let conditional ← readConditional source (.node .conditional start stop children)
      let (others, otherwise) ← readBranches source rest
      pure (conditional :: others, otherwise)
  | [.node .block start stop children] => do
      let block ← readBlock source (.node .block start stop children)
      pure ([], some block)
  | other :: _ => misshapen source other.start other.stop
termination_by structural trees

end

def readScript (source : Text) (tree : Tree) : Except ReadError Script := do
  let statements ← readStatements source tree.children
  pure ⟨statements, spanOf source tree⟩

end Ast

end FlowScript
