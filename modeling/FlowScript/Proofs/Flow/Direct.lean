import FlowScript.Run.Instance

/-!
# Direct control flow

A second semantics of scripts. Here a statement says how it completed: normally,
with a break or with a returned value. Blocks, loops, branches and functions look
at that completion, and a scope is left however the work in it ends. No signal and
no return slot is ever written. `try` has no meaning of its own in this semantics:
it passes the value of its operand on.
-/

set_option autoImplicit false

namespace FlowScript

open RunM

inductive Completion where
  | normal
  | breaking
  | returning (value : Value)

/-- The value that a function stores when its body completes. -/
def Completion.result? : Completion → Option Value
  | .returning value => some value
  | .normal | .breaking => none

namespace Direct

/-! ## Walking through statements -/

def executeAll (execute : Statement → RunM Completion) : List Statement → RunM Completion
  | [] => pure .normal
  | statement :: rest => do
      match ← execute statement with
      | .normal => executeAll execute rest
      | .breaking => pure .breaking
      | .returning value => pure (.returning value)

/-- Runs a body at most so many times. A break ends the loop normally; a loop that
is not ended by its body does something at last. -/
def repeatBody (body : RunM Completion) (exceeded : RunM Unit) : Nat → RunM Completion
  | 0 => do
      exceeded
      pure .normal
  | rounds + 1 => do
      match ← body with
      | .normal => repeatBody body exceeded rounds
      | .breaking => pure .normal
      | .returning value => pure (.returning value)

def chooseBranch (condition : Expr → RunM Bool) (run : Block → RunM Completion)
    (otherwise : Option Block) : List Conditional → RunM Completion
  | [] =>
      match otherwise with
      | some block => run block
      | none => pure .normal
  | branch :: rest => do
      if ← condition branch.condition then run branch.body
      else chooseBranch condition run otherwise rest

/-- Runs an action in a scope of its own, which is left in any case. -/
def inScope {α : Type} (action : RunM α) : RunM α := do
  let depth ← getDepth
  modifyScopes (·.push .block)
  let result ← tryCatch action fun interruption => do
    modifyScopes (·.truncate depth)
    throw interruption
  modifyScopes (·.truncate depth)
  pure result

/-! ## Calls -/

def invoke (execute : Statement → RunM Completion) (definition : Workflow)
    (arguments : CallArguments) (location : Span) : RunM Value := do
  report .debug "invoke" [("workflow", .text definition.name.name)]
  inScope do
    bindParameters definition arguments location
    let completion ← executeAll execute definition.body.statements
    checkResult definition completion.result? location

def awaitInvocation (execute : Context → Statement → RunM Completion) (context : Context)
    (definition : Workflow) (arguments : CallArguments) (called : Span) (timeout : Duration)
    (location : Span) : RunM Value := do
  match ← withTimeout context timeout fun inner =>
      invoke (execute inner) definition arguments called with
  | some result => pure result
  | none => do
      report .debug "await timed out" [("workflow", .text definition.name.name)]
      timeoutError location

def awaitValue (execute : Context → Statement → RunM Completion) (context : Context)
    (awaited : Value) (operand : Expr) (timeout : Duration) (location : Span) : RunM Value :=
  match awaited with
  | .invocation _ definition arguments called =>
      awaitInvocation execute context definition arguments called timeout location
  | .workflow definition =>
      awaitInvocation execute context definition (.empty location) location timeout location
  | .stored (.host kind) _ =>
      if kind.reply?.isSome then awaitHost context kind awaited timeout location
      else fail (.notAwaitable awaited.kind) operand.span
  | _ => fail (.notAwaitable awaited.kind) operand.span

/-! ## Expressions and statements -/

mutual

def evaluate (depth : Nat) (context : Context) (expr : Expr) : RunM Value :=
  match depth with
  | 0 => throw .exhausted
  | depth + 1 =>
      match expr with
      | .literal value _ => onStore (newScalar (.ofLiteral value))
      | .path name => resolve name.head name.tail
      | .call callee arguments argumentsSpan span => do
          let function ← resolve callee.head callee.tail
          let arguments ← evaluateArguments (evaluate depth context) (.empty argumentsSpan)
            arguments
          callValue function callee arguments span
      | .array elements _ => do
          let items ← evaluateElements (evaluate depth context) elements
          onStore (newArray items)
      | .dictionary entries _ => do
          let entries ← evaluateEntries (evaluate depth context) .empty entries
          onStore (newDictionary .dictionary entries)
      | .unary op operand span => do
          let value ← evaluate depth context operand
          onStoreAt span (value.unary op)
      | .chain first operations _ => do
          let left ← evaluate depth context first
          applyOperations (evaluate depth context) context.program left operations
      | .await operand duration span => do
          let awaited ← evaluate depth context operand
          let limit ← evaluate depth context duration
          let timeout ← expectDuration limit duration.span
          awaitValue (execute depth) context awaited operand timeout span
      | .attempt operand _ => evaluate depth context operand
termination_by structural depth

def execute (depth : Nat) (context : Context) (statement : Statement) : RunM Completion :=
  match depth with
  | 0 => throw .exhausted
  | depth + 1 => do
      report .trace "execute" [("code", .text (context.program.code statement.span))]
      match statement with
      | .importing path _ => do
          report .warn "import is not supported, statement ignored"
            [("path", .text path.render)]
          pure .normal
      | .declaration name typeName value span => do
          let kind ← resolveKind typeName
          let initializer ← match value with
            | some value => evaluate depth context value
            | none => pure .void
          let now ← currentInstant context
          let value ← onStoreAt span (Value.construct now kind initializer)
          onScopesAt name.span (·.declare name.name value)
          pure .normal
      | .assignment target value span => do
          let source ← evaluate depth context value
          assignTarget target source span
          pure .normal
      | .delay duration _ => do
          let value ← evaluate depth context duration
          let time ← expectDuration value duration.span
          report .debug "delay" [("duration", .text time.render)]
          wait context.deadlines time.millis
          pure .normal
      | .returning value _ => do
          let result ← evaluate depth context value
          pure (.returning result)
      | .raising value span => do
          let raised ← evaluate depth context value
          let store ← getStore
          match raised, store.string? raised with
          | .error _ _ _, _ => pure (.returning raised)
          | _, some message => do
              let error ← onStore (newError message (some span))
              pure (.returning error)
          | _, none => fail .raisedKind value.span
      | .breaking _ => pure .breaking
      | .expression value _ => do
          let _ ← evaluate depth context value
          pure .normal
      | .branch first others otherwise _ => do
          let condition := fun (expr : Expr) => do
            let value ← evaluate depth context expr
            onStoreAt expr.span value.truth
          let run := fun (block : Block) =>
            inScope (executeAll (execute depth context) block.statements)
          chooseBranch condition run otherwise (first :: others)
      | .loop body _ =>
          repeatBody (inScope (executeAll (execute depth context) body.statements))
            (report .debug "repeat stopped at the iteration cap"
              [("max_loop_count", .number context.maxLoopCount)])
            context.maxLoopCount
      | .workflow definition => do
          onScopesAt definition.name.span
            (·.declare definition.name.name (.workflow definition))
          pure .normal
termination_by structural depth

end

def runProgram (options : RunOptions) (depth : Nat) (program : Program) (instanceId : Int64) :
    Except Interruption (Option Value) × Machine :=
  let context : Context :=
    { program
      host := options.host
      maxLoopCount := options.maxLoopCount
      started := options.started
      deadlines := [] }
  let action : RunM (Option Value) := do
    let completion ← executeAll (execute depth context) program.script.statements
    pure completion.result?
  (action.run).run (initialMachine instanceId)

end Direct

end FlowScript
