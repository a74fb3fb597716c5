import FlowScript.Proofs.After
import FlowScript.Run.Evaluator
import Mathlib.Tactic.Common

/-!
# One part at a time

Names for the stretches of work between two parts of the syntax, and the
functions of evaluation in these terms: a first part, then the rest.
-/

set_option autoImplicit false

namespace FlowScript

open RunM

/-! ## Names, parameters and results -/

theorem run_resolve (head : Identifier) (tail : List Identifier) (machine : Machine) :
    (resolve head tail).run.run machine =
      (match machine.scopes.lookup? head.name with
        | some value => followPath value tail
        | none => fail (.undeclared head.name) head.span).run.run machine := rfl

theorem resolve_eq (head : Identifier) (tail : List Identifier) :
    resolve head tail = (do
      let value ← resolve head []
      followPath value tail) := by
  unfold resolve
  rw [bind_assoc]
  congr 1
  funext scopes
  split <;> rfl

/-- The argument for a parameter, and the unnamed arguments that are left. -/
def chooseArgument (arguments : CallArguments) (location : Span) (parameter : Parameter)
    (unnamed : List CallArgument) : RunM (CallArgument × List CallArgument) :=
  match arguments.named? parameter.name.name, unnamed with
  | some argument, unnamed => pure (argument, unnamed)
  | none, argument :: unnamed => pure (argument, unnamed)
  | none, [] => fail (.missingArgument parameter.name.name) location

def bindArgument (parameter : Parameter) (expected : Kind) (argument : CallArgument) :
    RunM Unit :=
  if argument.value.kind = expected then do
    let copy ← onStore argument.value.detach
    onScopesAt parameter.span (·.declare parameter.name.name copy)
  else
    fail (.argumentMismatch parameter.name.name expected argument.value.kind) argument.location

theorem bindEach_cons (arguments : CallArguments) (location : Span) (parameter : Parameter)
    (rest : List Parameter) (unnamed : List CallArgument) :
    bindEach arguments location (parameter :: rest) unnamed = (do
      let expected ← resolveKind parameter.typeName
      let (argument, unnamed) ← chooseArgument arguments location parameter unnamed
      bindArgument parameter expected argument
      bindEach arguments location rest unnamed) := by
  have bound : ∀ (expected : Kind) (argument : CallArgument) (left : List CallArgument),
      (bindArgument parameter expected argument >>= fun _ =>
        bindEach arguments location rest left) =
      if argument.value.kind = expected then do
        let copy ← onStore argument.value.detach
        onScopesAt parameter.span (·.declare parameter.name.name copy)
        bindEach arguments location rest left
      else fail (.argumentMismatch parameter.name.name expected argument.value.kind)
        argument.location := by
    intro expected argument left
    unfold bindArgument
    split
    · simp only [bind_assoc]
    · rfl
  rw [bindEach]
  simp only [chooseArgument, bound]
  congr 1
  funext expected
  cases arguments.named? parameter.name.name with
  | some argument => rfl
  | none => cases unnamed <;> rfl

def declaredKind (definition : Workflow) : RunM Kind :=
  match definition.returnType with
  | some name => resolveKind name
  | none => pure .void

def fitResult (declared : Kind) (result : Option Value) (location : Span) : RunM Value :=
  match result with
  | none => if declared = .void then pure .void else fail .missingReturnValue location
  | some value =>
      if value.isError ∨ value.kind = declared then pure value
      else fail (.returnMismatch declared value.kind) location

theorem checkResult_eq (definition : Workflow) (result : Option Value) (location : Span) :
    checkResult definition result location = (do
      let declared ← declaredKind definition
      fitResult declared result location) := by
  unfold checkResult declaredKind
  cases definition.returnType <;> rfl

/-! ## Expressions -/

def evaluateCopy (evaluate : Expr → RunM Value) (expr : Expr) : RunM Value := do
  let value ← evaluate expr
  onStore value.detach

def applyOperation (evaluate : Expr → RunM Value) (program : Program) (left : Value)
    (operation : Operation) : RunM Value :=
  match operation.op with
  | .isA => typeTest program left operation.operand
  | .isIn => do
      let container ← evaluate operation.operand
      onStoreAt operation.span (container.binary .isIn left)
  | op => do
      let right ← evaluate operation.operand
      onStoreAt operation.span (left.binary op right)

/-- What an operation that evaluates its right side does with both operands. -/
def Operation.applied (operation : Operation) (left right : Value) : StoreExceptM Value :=
  if operation.op = .isIn then right.binary .isIn left else left.binary operation.op right

theorem applyOperation_eq (evaluate : Expr → RunM Value) (program : Program) (left : Value)
    {operation : Operation} (evaluated : operation.op ≠ .isA) :
    applyOperation evaluate program left operation = (do
      let right ← evaluate operation.operand
      onStoreAt operation.span (operation.applied left right)) := by
  unfold applyOperation Operation.applied
  cases kind : operation.op <;> first | exact absurd kind evaluated | rfl

variable (evaluate : Expr → RunM Value)

theorem evaluateArguments_append (done : CallArguments) (before rest : List Argument) :
    evaluateArguments evaluate done (before ++ rest) = (do
      let done ← evaluateArguments evaluate done before
      evaluateArguments evaluate done rest) := by
  induction before generalizing done with
  | nil => simp only [List.nil_append, evaluateArguments, pure_bind]
  | cons argument before ih => simp only [List.cons_append, evaluateArguments, ih, bind_assoc]

theorem evaluateElements_cons (element : Expr) (rest : List Expr) :
    evaluateElements evaluate (element :: rest) = (do
      let copy ← evaluateCopy evaluate element
      let copies ← evaluateElements evaluate rest
      pure (copy :: copies)) := by
  simp only [evaluateElements, evaluateCopy, bind_assoc]

theorem evaluateElements_append (before rest : List Expr) :
    evaluateElements evaluate (before ++ rest) = (do
      let copies ← evaluateElements evaluate before
      let others ← evaluateElements evaluate rest
      pure (copies ++ others)) := by
  induction before with
  | nil => simp only [List.nil_append, evaluateElements, pure_bind, bind_pure]
  | cons element before ih =>
      simp only [List.cons_append, evaluateElements, ih, bind_assoc, pure_bind]

theorem evaluateEntries_cons (done : Dictionary Value) (entry : Entry) (rest : List Entry) :
    evaluateEntries evaluate done (entry :: rest) = (do
      let copy ← evaluateCopy evaluate entry.value
      evaluateEntries evaluate (done.insert entry.key.name copy) rest) := by
  simp only [evaluateEntries, evaluateCopy, bind_assoc]

theorem evaluateEntries_append (done : Dictionary Value) (before rest : List Entry) :
    evaluateEntries evaluate done (before ++ rest) = (do
      let done ← evaluateEntries evaluate done before
      evaluateEntries evaluate done rest) := by
  induction before generalizing done with
  | nil => simp only [List.nil_append, evaluateEntries, pure_bind]
  | cons entry before ih => simp only [List.cons_append, evaluateEntries, ih, bind_assoc]

theorem applyOperations_cons (program : Program) (left : Value) (operation : Operation)
    (rest : List Operation) :
    applyOperations evaluate program left (operation :: rest) = (do
      let result ← applyOperation evaluate program left operation
      applyOperations evaluate program result rest) := by
  simp only [applyOperations, applyOperation]
  cases operation.op <;> simp only [bind_assoc]

theorem applyOperations_append (program : Program) (left : Value)
    (before rest : List Operation) :
    applyOperations evaluate program left (before ++ rest) = (do
      let left ← applyOperations evaluate program left before
      applyOperations evaluate program left rest) := by
  induction before generalizing left with
  | nil => simp only [List.nil_append, applyOperations, pure_bind]
  | cons operation before ih =>
      simp only [List.cons_append, applyOperations_cons, ih, bind_assoc]

/-! ## Scopes -/

def Machine.entering (machine : Machine) (kind : ScopeKind) : Machine :=
  { machine with scopes := machine.scopes.push kind }

def Machine.leaving (machine : Machine) (depth : Nat) : Machine :=
  { machine with scopes := machine.scopes.truncate depth }

theorem run_restoringScopes {α : Type} (action : RunM α) (machine : Machine) :
    (restoringScopes action).run.run machine =
      match action.run.run machine with
      | (.ok value, final) => (.ok value, final)
      | (.error interruption, final) => (.error interruption,
          if interruption.isFailure then final.leaving machine.scopes.depth else final) := by
  have reads : getDepth.Returns machine machine.scopes.depth machine := rfl
  unfold restoringScopes
  rw [reads.run_bind, run_tryCatch_eq]
  cases action.run.run machine with
  | mk outcome final =>
      cases outcome with
      | ok value => rfl
      | error interruption => cases interruption <;> rfl

/-- Goes on with the statements behind another one, unless that gave a signal. -/
def executeRest (execute : Statement → RunM Unit) (rest : List Statement) : RunM Unit := do
  let scopes ← getScopes
  if scopes.flow = .proceed then executeAll execute rest else pure ()

theorem executeAll_cons (execute : Statement → RunM Unit) (statement : Statement)
    (rest : List Statement) :
    executeAll execute (statement :: rest) = (do
      execute statement
      executeRest execute rest) := rfl

theorem run_executeRest (execute : Statement → RunM Unit) (rest : List Statement)
    (machine : Machine) :
    (executeRest execute rest).run.run machine =
      if machine.scopes.flow = .proceed then (executeAll execute rest).run.run machine
      else (.ok (), machine) := by
  have unfolded : (executeRest execute rest).run.run machine =
      (if machine.scopes.flow = .proceed then executeAll execute rest
        else pure () : RunM Unit).run.run machine := rfl
  rw [unfolded]
  split <;> rfl

/-- A block runs inside a scope of its own, which is left afterwards. -/
theorem run_runBlock (execute : Statement → RunM Unit) (kind : ScopeKind) (block : Block)
    (machine : Machine) :
    (runBlock execute kind block).run.run machine =
      match (executeAll execute block.statements).run.run (machine.entering kind) with
      | (.ok _, final) =>
          (.ok final.scopes.pop.1, { final with scopes := final.scopes.pop.2 })
      | (.error interruption, final) => (.error interruption,
          if interruption.isFailure then final.leaving machine.scopes.depth else final) := by
  have entered : (do
      modifyScopes (·.push kind)
      executeAll execute block.statements : RunM Unit).run.run machine =
        (executeAll execute block.statements).run.run (machine.entering kind) := by
    rw [run_bind_eq]
    rfl
  unfold runBlock
  rw [run_bind_eq, run_restoringScopes, entered]
  cases (executeAll execute block.statements).run.run (machine.entering kind) with
  | mk outcome final => cases outcome <;> rfl

theorem returns_runBlock {execute : Statement → RunM Unit} {kind : ScopeKind} {block : Block}
    {machine final : Machine} {signal : FlowSignal} :
    (runBlock execute kind block).Returns machine signal final ↔
      ∃ inside, (executeAll execute block.statements).Returns (machine.entering kind) () inside ∧
        signal = inside.scopes.pop.1 ∧ final = { inside with scopes := inside.scopes.pop.2 } := by
  unfold RunM.Returns
  rw [run_runBlock]
  cases (executeAll execute block.statements).run.run (machine.entering kind) with
  | mk outcome inside =>
      cases outcome with
      | ok =>
          constructor
          · intro same
            cases same
            exact ⟨inside, rfl, rfl, rfl⟩
          · rintro ⟨_, same, rfl, rfl⟩
            cases same
            rfl
      | error =>
          constructor
          · intro impossible
            cases impossible
          · rintro ⟨_, impossible, -⟩
            cases impossible

/-! ## Calls -/

/-- The context inside an `await` that starts at a time. -/
def Context.awaiting (context : Context) (now : Nat) (timeout : Duration) : Context :=
  { context with
    deadlines := (now + max timeout.millis shortestTimeout) :: context.deadlines }

theorem run_wait (deadlines : List Nat) (millis : Nat) (machine : Machine) :
    (wait deadlines millis).run.run machine =
      match firstDeadline? (machine.now + min millis longestWait) deadlines with
      | none => (.ok (), { machine with now := machine.now + min millis longestWait })
      | some (deadline, level) =>
          (.error (.expired level), { machine with now := deadline }) := by
  have reads : RunM.Returns (get : RunM Machine) machine machine machine := rfl
  unfold wait
  rw [reads.run_bind]
  dsimp only
  cases firstDeadline? (machine.now + min millis longestWait) deadlines <;> rfl

theorem run_withTimeout {α : Type} (context : Context) (timeout : Duration)
    (action : Context → RunM α) (machine : Machine) :
    (withTimeout context timeout action).run.run machine =
      match (action (context.awaiting machine.now timeout)).run.run machine with
      | (.ok value, final) => (.ok (some value), final)
      | (.error interruption, final) =>
          if interruption = .expired context.deadlines.length then (.ok none, final)
          else (.error interruption, final) := by
  have unfolded : (withTimeout context timeout action).run.run machine =
      (tryCatch (some <$> action (context.awaiting machine.now timeout)) fun interruption =>
        if interruption = .expired context.deadlines.length then pure none
        else throw interruption : RunM (Option α)).run.run machine := rfl
  rw [unfolded, run_tryCatch_eq, map_eq_pure_bind, run_bind_eq]
  cases (action (context.awaiting machine.now timeout)).run.run machine with
  | mk outcome final =>
      cases outcome with
      | ok value => rfl
      | error interruption =>
          dsimp only
          split <;> rfl

def callBody (execute : Statement → RunM Unit) (definition : Workflow)
    (arguments : CallArguments) (location : Span) : RunM Value := do
  bindParameters definition arguments location
  executeAll execute definition.body.statements
  let scopes ← getScopes
  checkResult definition scopes.returnValue? location

def announceCall (definition : Workflow) : RunM Unit :=
  report .debug "invoke" [("workflow", .text definition.name.name)]

def runCall (execute : Statement → RunM Unit) (definition : Workflow)
    (arguments : CallArguments) (location : Span) : RunM Value := do
  let depth ← getDepth
  let result ← restoringScopes do
    modifyScopes (·.push .function)
    callBody execute definition arguments location
  modifyScopes (·.truncate depth)
  pure result

theorem invoke_eq (execute : Statement → RunM Unit) (definition : Workflow)
    (arguments : CallArguments) (location : Span) :
    invoke execute definition arguments location = (do
      announceCall definition
      runCall execute definition arguments location) := rfl

theorem run_runCall (execute : Statement → RunM Unit) (definition : Workflow)
    (arguments : CallArguments) (location : Span) (machine : Machine) :
    (runCall execute definition arguments location).run.run machine =
      match (callBody execute definition arguments location).run.run
          (machine.entering .function) with
      | (.ok value, final) => (.ok value, final.leaving machine.scopes.depth)
      | (.error interruption, final) => (.error interruption,
          if interruption.isFailure then final.leaving machine.scopes.depth else final) := by
  have unfolded : (runCall execute definition arguments location).run.run machine = (do
      let result ← restoringScopes do
        modifyScopes (·.push .function)
        callBody execute definition arguments location
      modifyScopes (·.truncate machine.scopes.depth)
      pure result : RunM Value).run.run machine := rfl
  have entered : (do
      modifyScopes (·.push .function)
      callBody execute definition arguments location : RunM Value).run.run machine =
        (callBody execute definition arguments location).run.run (machine.entering .function) := by
    rw [run_bind_eq]
    rfl
  rw [unfolded, run_bind_eq, run_restoringScopes, entered]
  cases (callBody execute definition arguments location).run.run (machine.entering .function) with
  | mk outcome final => cases outcome <;> rfl

def answerTimeout (definition : Workflow) (location : Span) : RunM Value := do
  report .debug "await timed out" [("workflow", .text definition.name.name)]
  timeoutError location

theorem run_awaitInvocation (execute : Context → Statement → RunM Unit) (context : Context)
    (definition : Workflow) (arguments : CallArguments) (called : Span) (timeout : Duration)
    (location : Span) (machine : Machine) :
    (awaitInvocation execute context definition arguments called timeout location).run.run machine =
      match (invoke (execute (context.awaiting machine.now timeout)) definition arguments
          called).run.run machine with
      | (.ok value, final) => (.ok value, final)
      | (.error interruption, final) =>
          if interruption = .expired context.deadlines.length then
            (answerTimeout definition location).run.run (final.leaving machine.scopes.depth)
          else (.error interruption, final) := by
  have reads : getDepth.Returns machine machine.scopes.depth machine := rfl
  unfold awaitInvocation
  rw [reads.run_bind, run_bind_eq, run_withTimeout]
  cases (invoke (execute (context.awaiting machine.now timeout)) definition arguments
      called).run.run machine with
  | mk outcome final =>
      cases outcome with
      | ok value => rfl
      | error interruption =>
          by_cases expired : interruption = .expired context.deadlines.length
          · simp only [if_pos expired]
            rw [run_bind_eq]
            rfl
          · simp only [if_neg expired]

def askHost (context : Context) (kind : HostKind) (timeout : Duration) (location : Span)
    (service : Service) (delegate : Delegate) (reply : HostKind) (payload : JsonObject) :
    RunM Value := do
  match ← withTimeout context timeout (askService service delegate payload) with
  | some (.ok members) => onStore do
      let entries ← Value.ofJsonObject members
      newDictionary (.host reply) entries
  | some (.error reason) => do
      report .warn "host operation failed"
        [("request", .text kind.name), ("error", .text reason)]
      onStore (newError reason (some location))
  | none => do
      report .debug "await timed out" [("request", .text kind.name)]
      timeoutError location

theorem awaitHost_eq (context : Context) (kind : HostKind) (request : Value)
    (timeout : Duration) (location : Span) :
    awaitHost context kind request timeout location = (
      match (do
        let service ← kind.service?
        let delegate ← context.host.delegate? service
        let reply ← kind.reply?
        pure (service, delegate, reply)) with
      | none => fail (.missingDelegate kind) location
      | some (service, delegate, reply) => do
          let store ← getStore
          report .debug "await host operation" [("request", .text kind.name)]
          askHost context kind timeout location service delegate reply
            ((request.toJsonObject? store).getD [])) := rfl

/-! ## Statements -/

def announce (context : Context) (statement : Statement) : RunM Unit :=
  report .trace "execute" [("code", .text (context.program.code statement.span))]

def declareVariable (context : Context) (name : Identifier) (kind : Kind) (span : Span)
    (initializer : Value) : RunM Unit := do
  let now ← currentInstant context
  let value ← onStoreAt span (Value.construct now kind initializer)
  onScopesAt name.span (·.declare name.name value)

/-- The expression that a statement evaluates before it does anything else. -/
def Statement.value? : Statement → Option Expr
  | .assignment _ value _ => some value
  | .delay duration _ => some duration
  | .returning value _ => some value
  | .raising value _ => some value
  | .expression value _ => some value
  | _ => none

/-- What a statement does with the value of its expression. -/
def Statement.finish (context : Context) : Statement → Value → RunM Unit
  | .assignment target _ span, source => assignTarget target source span
  | .delay duration _, value => do
      let time ← expectDuration value duration.span
      report .debug "delay" [("duration", .text time.render)]
      wait context.deadlines time.millis
  | .returning _ _, result => setReturn result
  | .raising value span, raised => do
      let store ← getStore
      match raised, store.string? raised with
      | .error _ _ _, _ => setReturn raised
      | _, some message => do
          let error ← onStore (newError message (some span))
          setReturn error
      | _, none => fail .raisedKind value.span
  | _, _ => pure ()

theorem execute_value (depth : Nat) (context : Context) {statement : Statement} {expr : Expr}
    (owned : statement.value? = some expr) :
    execute (depth + 1) context statement = (do
      announce context statement
      let value ← FlowScript.evaluate depth context expr
      statement.finish context value) := by
  cases statement <;> cases owned <;> rfl

def testCondition (depth : Nat) (context : Context) (expr : Expr) : RunM Bool := do
  let value ← FlowScript.evaluate depth context expr
  onStoreAt expr.span value.truth

/-- Runs the block of a branch; its signal is left to the scopes. -/
def runBranch (depth : Nat) (context : Context) (block : Block) : RunM Unit := do
  let _ ← runBlock (execute depth context) .block block
  pure ()

def runBranches (depth : Nat) (context : Context) (branches : List Conditional) : RunM Bool :=
  runFirstBranch (testCondition depth context) (runBranch depth context) branches

def runRounds (depth : Nat) (context : Context) (body : Block) (rounds : Nat) : RunM Bool :=
  repeatUntilSignal (runBlock (execute depth context) .loop body) rounds

/-- A branch is tried when none of those before it was chosen. -/
theorem runBranches_append (depth : Nat) (context : Context) (before rest : List Conditional)
    (branch : Conditional) :
    runBranches depth context (before ++ branch :: rest) = (do
      if ← runBranches depth context before then pure true
      else if ← testCondition depth context branch.condition then do
        runBranch depth context branch.body
        pure true
      else runBranches depth context rest) := by
  unfold runBranches
  induction before with
  | nil => simp [runFirstBranch]
  | cons other before ih =>
      simp only [List.cons_append, runFirstBranch, ih, bind_assoc]
      congr 1
      funext holds
      cases holds with
      | true => simp
      | false => rfl

/-- A round is run when none of those before it ended with a signal. -/
theorem runRounds_add (depth : Nat) (context : Context) (body : Block) (rounds more : Nat) :
    runRounds depth context body (rounds + (more + 1)) = (do
      if ← runRounds depth context body rounds then pure true
      else do
        let signal ← runBlock (execute depth context) .loop body
        if signal = .proceed then runRounds depth context body more else pure true) := by
  unfold runRounds
  induction rounds with
  | zero => simp [repeatUntilSignal]
  | succ rounds ih =>
      rw [Nat.succ_add, repeatUntilSignal, repeatUntilSignal, bind_assoc]
      congr 1
      funext signal
      split
      · exact ih
      · simp

def reportCap (context : Context) : RunM Unit :=
  report .debug "repeat stopped at the iteration cap"
    [("max_loop_count", .number context.maxLoopCount)]

def endLoop (context : Context) (signalled : Bool) : RunM Unit :=
  if signalled then pure () else reportCap context

def runOtherwise (depth : Nat) (context : Context) (otherwise : Option Block) (chosen : Bool) :
    RunM Unit :=
  match chosen, otherwise with
  | false, some block => runBranch depth context block
  | _, _ => pure ()

theorem execute_branch (depth : Nat) (context : Context) (first : Conditional)
    (others : List Conditional) (otherwise : Option Block) (span : Span) :
    execute (depth + 1) context (.branch first others otherwise span) = (do
      announce context (.branch first others otherwise span)
      let chosen ← runBranches depth context (first :: others)
      runOtherwise depth context otherwise chosen) := rfl

theorem execute_loop (depth : Nat) (context : Context) (body : Block) (span : Span) :
    execute (depth + 1) context (.loop body span) = (do
      announce context (.loop body span)
      let signalled ← runRounds depth context body context.maxLoopCount
      if signalled then pure () else reportCap context) := rfl

def evaluateAwait (depth : Nat) (context : Context) (operand duration : Expr) :
    RunM (Value × Duration) := do
  let awaited ← FlowScript.evaluate depth context operand
  let limit ← FlowScript.evaluate depth context duration
  let timeout ← expectDuration limit duration.span
  pure (awaited, timeout)

theorem evaluate_await (depth : Nat) (context : Context) (operand duration : Expr)
    (span : Span) :
    FlowScript.evaluate (depth + 1) context (.await operand duration span) = (do
      let (awaited, timeout) ← evaluateAwait depth context operand duration
      awaitValue (execute depth) context awaited operand timeout span) := by
  simp only [evaluateAwait, bind_assoc, pure_bind]
  rfl

end FlowScript
