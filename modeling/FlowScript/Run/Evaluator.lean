import FlowScript.Run.Call

/-!
# Evaluation

Expressions yield values and statements change the machine. The recursion is
bounded by the depth to which evaluation may nest; lists of parts and the rounds
of a loop are walked through without using any of it.
-/

set_option autoImplicit false

namespace FlowScript

open RunM

/-! ## Walking through parts -/

/-- Evaluates arguments in order, behind those already evaluated. -/
def evaluateArguments (evaluate : Expr → RunM Value) (done : CallArguments) :
    List Argument → RunM CallArguments
  | [] => pure done
  | argument :: rest => do
      let value ← evaluate argument.value
      let name := argument.name.map fun identifier => identifier.name
      evaluateArguments evaluate (done.push name value argument.span) rest

/-- Evaluates elements in order and copies each value before the next one. -/
def evaluateElements (evaluate : Expr → RunM Value) : List Expr → RunM (List Value)
  | [] => pure []
  | element :: rest => do
      let value ← evaluate element
      let copy ← onStore value.detach
      let copies ← evaluateElements evaluate rest
      pure (copy :: copies)

/-- Evaluates entries in order, behind those already evaluated. -/
def evaluateEntries (evaluate : Expr → RunM Value) (done : Dictionary Value) :
    List Entry → RunM (Dictionary Value)
  | [] => pure done
  | entry :: rest => do
      let value ← evaluate entry.value
      let copy ← onStore value.detach
      evaluateEntries evaluate (done.insert entry.key.name copy) rest

/-- The type named on the right side of a type test: a plain name, or else the
source code that stands there. -/
def testedName (program : Program) : Expr → String
  | .path ⟨head, [], _⟩ => head.name
  | operand => program.code operand.span

/-- Whether a value has the type named by an operand. -/
def typeTest (program : Program) (value : Value) (operand : Expr) : RunM Value :=
  let name := testedName program operand
  match Kind.ofName? name with
  | some kind => onStore (newScalar (.boolean (value.kind = kind)))
  | none => fail (.notAType name) operand.span

/-- Applies operations from left to right. Every operand is evaluated. -/
def applyOperations (evaluate : Expr → RunM Value) (program : Program) (left : Value) :
    List Operation → RunM Value
  | [] => pure left
  | operation :: rest => do
      let result ← match operation.op with
        | .isA => typeTest program left operation.operand
        | .isIn => do
            let container ← evaluate operation.operand
            onStoreAt operation.span (container.binary .isIn left)
        | op => do
            let right ← evaluate operation.operand
            onStoreAt operation.span (left.binary op right)
      applyOperations evaluate program result rest

/-- Executes statements until one of them gives a signal. -/
def executeAll (execute : Statement → RunM Unit) : List Statement → RunM Unit
  | [] => pure ()
  | statement :: rest => do
      execute statement
      let scopes ← getScopes
      if scopes.flow = .proceed then executeAll execute rest else pure ()

/-- Runs a body at most so many times, until it ends with a signal. The answer is
whether it did. -/
def repeatUntilSignal (body : RunM FlowSignal) : Nat → RunM Bool
  | 0 => pure false
  | rounds + 1 => do
      let signal ← body
      if signal = .proceed then repeatUntilSignal body rounds else pure true

/-- Runs the first branch whose condition holds; the answer is whether there was
one. -/
def runFirstBranch (condition : Expr → RunM Bool) (run : Block → RunM Unit) :
    List Conditional → RunM Bool
  | [] => pure false
  | branch :: rest => do
      if ← condition branch.condition then do
        run branch.body
        pure true
      else runFirstBranch condition run rest

/-! ## Scopes around statements -/

/-- Runs an action. If it fails, the scopes it entered are left. -/
def restoringScopes {α : Type} (action : RunM α) : RunM α := do
  let depth ← getDepth
  tryCatch action fun interruption => do
    match interruption with
    | .failed _ => modifyScopes (·.truncate depth)
    | _ => pure ()
    throw interruption

/-- Runs a block in a scope of its own and answers with the signal it ended with. -/
def runBlock (execute : Statement → RunM Unit) (kind : ScopeKind) (block : Block) :
    RunM FlowSignal := do
  restoringScopes do
    modifyScopes (·.push kind)
    executeAll execute block.statements
  let scopes ← getScopes
  let (signal, scopes) := scopes.pop
  modifyScopes fun _ => scopes
  pure signal

/-- Runs a pending call in a function scope of its own and yields its result. -/
def invoke (execute : Statement → RunM Unit) (definition : Workflow)
    (arguments : CallArguments) (location : Span) : RunM Value := do
  report .debug "invoke" [("workflow", .text definition.name.name)]
  let depth ← getDepth
  let result ← restoringScopes do
    modifyScopes (·.push .function)
    bindParameters definition arguments location
    executeAll execute definition.body.statements
    let scopes ← getScopes
    checkResult definition scopes.returnValue? location
  modifyScopes (·.truncate depth)
  pure result

/-! ## Awaiting -/

def timeoutError (location : Span) : RunM Value :=
  onStore (newError "Operation timeout" (some location))

/-- Waits for a pending call. When time is up, the call is abandoned and the
scopes it was in are left. -/
def awaitInvocation (execute : Context → Statement → RunM Unit) (context : Context)
    (definition : Workflow) (arguments : CallArguments) (called : Span) (timeout : Duration)
    (location : Span) : RunM Value := do
  let depth ← getDepth
  match ← withTimeout context timeout fun inner =>
      invoke (execute inner) definition arguments called with
  | some result => pure result
  | none => do
      modifyScopes (·.truncate depth)
      report .debug "await timed out" [("workflow", .text definition.name.name)]
      timeoutError location

/-- Sends a request to a service and waits for its answer. -/
def askService (service : Service) (delegate : Delegate) (payload : JsonObject)
    (context : Context) : RunM (Except String JsonObject) := do
  recordRequest service payload
  let machine ← get
  let current := context.host.adapted machine.requests delegate
  reportAll (current.announce payload)
  wait context.deadlines current.latency
  pure (current.answer payload)

/-- Sends a request to the host and waits for the reply. -/
def awaitHost (context : Context) (kind : HostKind) (request : Value) (timeout : Duration)
    (location : Span) : RunM Value := do
  let found := do
    let service ← kind.service?
    let delegate ← context.host.delegate? service
    let reply ← kind.reply?
    pure (service, delegate, reply)
  match found with
  | none => fail (.missingDelegate kind) location
  | some (service, delegate, reply) => do
      let store ← getStore
      let payload := (request.toJsonObject? store).getD []
      report .debug "await host operation" [("request", .text kind.name)]
      match ← withTimeout context timeout (askService service delegate payload) with
      | some (.ok members) => onStore do
          let entries ← Value.ofJsonObject members
          newDictionary (.host reply) entries
      | some (.error reason) => do
          report .warn "host operation failed"
            [("request", .text kind.name), ("error", .text reason)]
          onStore (newError reason (some location))
      | none => do
          report .debug "await timed out" [("request", .text kind.name)]
          timeoutError location

def expectDuration (value : Value) (location : Span) : RunM Duration := do
  let store ← getStore
  match store.duration? value with
  | some duration => pure duration
  | none => fail (.durationExpected value.kind) location

/-- Waits for a value: a pending call, a workflow without arguments, or a request
to the host. -/
def awaitValue (execute : Context → Statement → RunM Unit) (context : Context)
    (awaited : Value) (operand : Expr) (timeout : Duration) (location : Span) : RunM Value :=
  match awaited with
  | .invocation _ definition arguments called =>
      awaitInvocation execute context definition arguments called timeout location
  | .workflow definition =>
      awaitInvocation execute context definition (.empty location) location timeout location
  | .stored (.host kind) _ =>
      if kind.reply?.isSome then awaitHost context kind awaited timeout location
      else fail (.notAwaitable awaited.kind) operand.span
  | _ => fail (.notAwaitable awaited.kind) operand.span

/-! ## Assignment -/

def assignVariable (name : Identifier) (source : Value) (span : Span) : RunM Unit := do
  let current ← resolve name []
  let value ← onStoreAt span (current.assign source)
  onScopesAt name.span (·.rebind name.name value)

/-- Assigns to an existing entry of a dictionary-shaped value. -/
def assignEntry (parent : Value) (key : Identifier) (source : Value) (span : Span) :
    RunM Unit := do
  let store ← getStore
  match parent, (store.dictionary? parent).bind (·.get? key.name) with
  | .stored _ address, some current => do
      let value ← onStoreAt span (current.assign source)
      onStore (modify fun store =>
        match store.dictionary? parent with
        | some entries => store.write address (.dictionary (entries.insert key.name value))
        | none => store)
  | _, _ => fail (.propertyNotFound key.name) key.span

def assignTarget (target : Path) (source : Value) (span : Span) : RunM Unit :=
  match target.splitLast with
  | ([], name) => assignVariable name source span
  | (head :: tail, key) => do
      let parent ← resolve head tail
      assignEntry parent key source span

/-! ## Expressions and statements -/

/-- The time of day at the clock's present position. -/
def currentInstant (context : Context) : RunM Instant := do
  let machine ← get
  pure ((context.started.shift machine.now).getD context.started)

mutual

def evaluate (depth : Nat) (context : Context) (expr : Expr) : RunM Value :=
  match depth with
  | 0 => throw .exhausted
  | depth + 1 =>
      match expr with
      | .literal value _ => onStore (newScalar (.ofLiteral value))
      | .path name => resolve name.head name.tail
      | .call callee arguments argumentsSpan span => do
          let function ← resolve callee.head callee.tail
          let arguments ← evaluateArguments (evaluate depth context) (.empty argumentsSpan)
            arguments
          callValue function callee arguments span
      | .array elements _ => do
          let items ← evaluateElements (evaluate depth context) elements
          onStore (newArray items)
      | .dictionary entries _ => do
          let entries ← evaluateEntries (evaluate depth context) .empty entries
          onStore (newDictionary .dictionary entries)
      | .unary op operand span => do
          let value ← evaluate depth context operand
          onStoreAt span (value.unary op)
      | .chain first operations _ => do
          let left ← evaluate depth context first
          applyOperations (evaluate depth context) context.program left operations
      | .await operand duration span => do
          let awaited ← evaluate depth context operand
          let limit ← evaluate depth context duration
          let timeout ← expectDuration limit duration.span
          awaitValue (execute depth) context awaited operand timeout span
      | .attempt operand span => do
          let value ← evaluate depth context operand
          if value.isError then do
            report .trace "try caught an error, returning"
              [("code", .text (context.program.code span))]
            setReturn value
          pure value
termination_by structural depth

def execute (depth : Nat) (context : Context) (statement : Statement) : RunM Unit :=
  match depth with
  | 0 => throw .exhausted
  | depth + 1 => do
      report .trace "execute" [("code", .text (context.program.code statement.span))]
      match statement with
      | .importing path _ =>
          report .warn "import is not supported, statement ignored"
            [("path", .text path.render)]
      | .declaration name typeName value span => do
          let kind ← resolveKind typeName
          let initializer ← match value with
            | some value => evaluate depth context value
            | none => pure .void
          let now ← currentInstant context
          let value ← onStoreAt span (Value.construct now kind initializer)
          onScopesAt name.span (·.declare name.name value)
      | .assignment target value span => do
          let source ← evaluate depth context value
          assignTarget target source span
      | .delay duration _ => do
          let value ← evaluate depth context duration
          let time ← expectDuration value duration.span
          report .debug "delay" [("duration", .text time.render)]
          wait context.deadlines time.millis
      | .returning value _ => do
          let result ← evaluate depth context value
          setReturn result
      | .raising value span => do
          let raised ← evaluate depth context value
          let store ← getStore
          match raised, store.string? raised with
          | .error _ _ _, _ => setReturn raised
          | _, some message => do
              let error ← onStore (newError message (some span))
              setReturn error
          | _, none => fail .raisedKind value.span
      | .breaking _ => modifyScopes (·.setFlow .breaking)
      | .expression value _ => do
          let _ ← evaluate depth context value
          pure ()
      | .branch first others otherwise _ => do
          let condition := fun (expr : Expr) => do
            let value ← evaluate depth context expr
            onStoreAt expr.span value.truth
          let run := fun (block : Block) => do
            let _ ← runBlock (execute depth context) .block block
            pure ()
          let chosen ← runFirstBranch condition run (first :: others)
          match chosen, otherwise with
          | false, some block => run block
          | _, _ => pure ()
      | .loop body _ => do
          let signalled ← repeatUntilSignal (runBlock (execute depth context) .loop body)
            context.maxLoopCount
          if signalled then pure ()
          else
            report .debug "repeat stopped at the iteration cap"
              [("max_loop_count", .number context.maxLoopCount)]
      | .workflow definition =>
          onScopesAt definition.name.span
            (·.declare definition.name.name (.workflow definition))
termination_by structural depth

end

end FlowScript
