import FlowScript.Proofs.Run.Lockstep
import FlowScript.Proofs.Run.Site

/-!
# What is left behind a part

Once a site has come to one of its parts, its evaluation goes on with that part and then
with whatever stands behind it.
-/

set_option autoImplicit false

namespace FlowScript

open RunM

variable {depth : Nat} {context : Context} {machine after : Machine}

/-! ## Parts of expressions -/

theorem run_argument {callee : Path} {before rest : List Argument} {argument : Argument}
    {argumentsSpan span : Span} {found : Machine} {function : Value} {values : CallArguments}
    (resolved : (resolve callee.head callee.tail).Returns machine function found)
    (evaluated : (evaluateArguments (evaluate depth context) (.empty argumentsSpan) before).Returns
      found values after) :
    (evaluate (depth + 1) context (.call callee (before ++ argument :: rest) argumentsSpan
      span)).run.run machine = (do
        let value ← evaluate depth context argument.value
        let name := argument.name.map fun identifier => identifier.name
        let arguments ← evaluateArguments (evaluate depth context)
          (values.push name value argument.span) rest
        callValue function callee arguments span : RunM Value).run.run after := by
  change (resolve callee.head callee.tail >>= fun function =>
    evaluateArguments (evaluate depth context) (.empty argumentsSpan)
      (before ++ argument :: rest) >>= fun arguments =>
        callValue function callee arguments span).run.run machine = _
  rw [resolved.run_bind, evaluateArguments_append, bind_assoc, evaluated.run_bind,
    evaluateArguments, bind_assoc]

theorem run_element {before rest : List Expr} {element : Expr} {span : Span} {values : List Value}
    (returns : (evaluateElements (evaluate depth context) before).Returns machine values after) :
    (evaluate (depth + 1) context (.array (before ++ element :: rest) span)).run.run machine = (do
      let value ← evaluate depth context element
      let copy ← onStore value.detach
      let others ← evaluateElements (evaluate depth context) rest
      onStore (newArray (values ++ copy :: others)) : RunM Value).run.run after := by
  change (evaluateElements (evaluate depth context) (before ++ element :: rest) >>= fun items =>
    onStore (newArray items)).run.run machine = _
  simp only [evaluateElements_append, bind_assoc, pure_bind]
  rw [returns.run_bind, evaluateElements]
  simp only [bind_assoc, pure_bind]

theorem run_entry {before rest : List Entry} {entry : Entry} {span : Span}
    {values : Dictionary Value}
    (returns : (evaluateEntries (evaluate depth context) .empty before).Returns machine values
      after) :
    (evaluate (depth + 1) context (.dictionary (before ++ entry :: rest) span)).run.run machine =
      (do
        let value ← evaluate depth context entry.value
        let copy ← onStore value.detach
        let entries ← evaluateEntries (evaluate depth context)
          (values.insert entry.key.name copy) rest
        onStore (newDictionary .dictionary entries) : RunM Value).run.run after := by
  change (evaluateEntries (evaluate depth context) .empty (before ++ entry :: rest) >>=
    fun entries => onStore (newDictionary .dictionary entries)).run.run machine = _
  rw [evaluateEntries_append, bind_assoc, returns.run_bind, evaluateEntries]
  simp only [bind_assoc]

theorem run_operand {first : Expr} {before rest : List Operation} {operation : Operation}
    {span : Span} {left : Value} (evaluated : operation.op ≠ .isA)
    (returns : RunM.Returns (do
      let left ← evaluate depth context first
      applyOperations (evaluate depth context) context.program left before) machine left after) :
    (evaluate (depth + 1) context (.chain first (before ++ operation :: rest) span)).run.run
      machine = (do
        let right ← evaluate depth context operation.operand
        let result ← onStoreAt operation.span (operation.applied left right)
        applyOperations (evaluate depth context) context.program result rest :
          RunM Value).run.run after := by
  obtain ⟨start, started, firstReturns, applied⟩ := returns.steps
  change (evaluate depth context first >>= fun left =>
    applyOperations (evaluate depth context) context.program left
      (before ++ operation :: rest)).run.run machine = _
  rw [firstReturns.run_bind, applyOperations_append, applied.run_bind, applyOperations_cons,
    applyOperation_eq _ _ _ evaluated, bind_assoc]

theorem run_duration {operand duration : Expr} {span : Span} {awaited : Value}
    (returns : (evaluate depth context operand).Returns machine awaited after) :
    (evaluate (depth + 1) context (.await operand duration span)).run.run machine = (do
      let limit ← evaluate depth context duration
      let timeout ← expectDuration limit duration.span
      awaitValue (execute depth) context awaited operand timeout span : RunM Value).run.run
        after := by
  change (evaluate depth context operand >>= fun awaited =>
    evaluate depth context duration >>= fun limit =>
      expectDuration limit duration.span >>= fun timeout =>
        awaitValue (execute depth) context awaited operand timeout span).run.run machine = _
  rw [returns.run_bind]

theorem run_awaitCall {operand duration : Expr} {span called : Span} {awaited : Value}
    {timeout : Duration} {definition : Workflow} {arguments : CallArguments}
    (evaluated : (evaluateAwait depth context operand duration).Returns machine (awaited, timeout)
      after) (pending : awaited.pendingCall? span = some (definition, arguments, called)) :
    (evaluate (depth + 1) context (.await operand duration span)).run.run machine =
      (awaitInvocation (execute depth) context definition arguments called timeout span).run.run
        after := by
  rw [evaluate_await, evaluated.run_bind]
  cases awaited with
  | invocation | workflow =>
      cases pending
      rfl
  | void | error | stored | member | builtin => cases pending

/-! ## Parts of statements -/

theorem run_initializer {name typeName : Identifier} {value : Expr} {span : Span} {kind : Kind}
    (returns : RunM.Returns (do
      announce context (.declaration name typeName (some value) span)
      resolveKind typeName) machine kind after) :
    (execute (depth + 1) context (.declaration name typeName (some value) span)).run.run machine =
      (do
        let initializer ← evaluate depth context value
        declareVariable context name kind span initializer : RunM Unit).run.run after := by
  obtain ⟨_, announced, announces, resolved⟩ := returns.steps
  change (announce context _ >>= fun _ => resolveKind typeName >>= fun kind =>
    evaluate depth context value >>= declareVariable context name kind span).run.run machine = _
  rw [announces.run_bind, resolved.run_bind]

theorem run_value {statement : Statement} {value : Expr} (owned : statement.value? = some value)
    (announces : (announce context statement).Returns machine () after) :
    (execute (depth + 1) context statement).run.run machine = (do
      let value ← evaluate depth context value
      statement.finish context value : RunM Unit).run.run after := by
  rw [execute_value depth context owned, announces.run_bind]

/-- What follows the condition of a branch. -/
def takeBranch (depth : Nat) (context : Context) (branch : Conditional)
    (rest : List Conditional) (holds : Bool) : RunM Bool :=
  if holds then do
    runBranch depth context branch.body
    pure true
  else runBranches depth context rest

/-- The condition of a branch is tested when no branch before it was taken. -/
theorem run_execute_branch {first branch : Conditional} {others before rest : List Conditional}
    {otherwise : Option Block} {span : Span} (split : first :: others = before ++ branch :: rest)
    (returns : RunM.Returns (do
      announce context (.branch first others otherwise span)
      runBranches depth context before) machine false after) :
    (execute (depth + 1) context (.branch first others otherwise span)).run.run machine =
      (do
        let holds ← testCondition depth context branch.condition
        let chosen ← takeBranch depth context branch rest holds
        runOtherwise depth context otherwise chosen : RunM Unit).run.run after := by
  obtain ⟨_, announced, announces, tried⟩ := returns.steps
  rw [execute_branch, announces.run_bind, split, runBranches_append]
  simp only [bind_assoc]
  rw [tried.run_bind]
  simp only [Bool.false_eq_true, if_false, bind_assoc]
  rfl

theorem run_takenBranch {first branch : Conditional} {others before rest : List Conditional}
    {otherwise : Option Block} {span : Span} {reached : Machine}
    (split : first :: others = before ++ branch :: rest)
    (returns : RunM.Returns (do
      announce context (.branch first others otherwise span)
      runBranches depth context before) machine false reached)
    (holds : (testCondition depth context branch.condition).Returns reached true after) :
    (execute (depth + 1) context (.branch first others otherwise span)).run.run machine =
      (do
        let _ ← runBlock (execute depth context) .block branch.body
        runOtherwise depth context otherwise true : RunM Unit).run.run after := by
  rw [run_execute_branch split returns, holds.run_bind]
  simp only [takeBranch, runBranch, bind_assoc, pure_bind, if_true]

theorem run_lastBranch {first : Conditional} {others : List Conditional} {block : Block}
    {span : Span} (returns : RunM.Returns (do
      announce context (.branch first others (some block) span)
      runBranches depth context (first :: others)) machine false after) :
    (execute (depth + 1) context (.branch first others (some block) span)).run.run machine =
      (do
        let _ ← runBlock (execute depth context) .block block
        pure () : RunM Unit).run.run after := by
  obtain ⟨_, announced, announces, tried⟩ := returns.steps
  rw [execute_branch, announces.run_bind, tried.run_bind]
  rfl

/-- What follows a round of a loop when so many more are left. -/
def goOnLooping (depth : Nat) (context : Context) (body : Block) (more : Nat)
    (signal : FlowSignal) : RunM Unit :=
  (if signal = .proceed then runRounds depth context body more else pure true) >>= endLoop context

/-- A round is run when no round before it gave a signal. -/
theorem run_execute_loop {body : Block} {span : Span} {rounds more : Nat}
    (count : context.maxLoopCount = rounds + (more + 1))
    (returns : RunM.Returns (do
      announce context (.loop body span)
      runRounds depth context body rounds) machine false after) :
    (execute (depth + 1) context (.loop body span)).run.run machine =
      (do
        let signal ← runBlock (execute depth context) .loop body
        goOnLooping depth context body more signal : RunM Unit).run.run after := by
  obtain ⟨_, announced, announces, repeated⟩ := returns.steps
  rw [execute_loop, announces.run_bind, count, runRounds_add]
  simp only [bind_assoc]
  rw [repeated.run_bind]
  simp only [Bool.false_eq_true, if_false, bind_assoc]
  rfl

theorem run_otherStatements {statement : Statement} {rest : List Statement}
    (returns : (execute depth context statement).Returns machine () after)
    (proceeds : after.scopes.flow = .proceed) :
    (executeAll (execute depth context) (statement :: rest)).run.run machine =
      (executeAll (execute depth context) rest).run.run after := by
  rw [executeAll_cons, returns.run_bind, run_executeRest, if_pos proceeds]

/-! ## What is kept behind a part -/

namespace Lockstep

variable {kept : ∀ {α : Type}, RunM α → Prop}
  (lockstep : Lockstep Eq fun {_} action _ => kept action) (depth : Nat) (context : Context)

include lockstep

theorem takeBranch (branch : Conditional) (rest : List Conditional) (holds : Bool) :
    kept (FlowScript.takeBranch depth context branch rest holds) := by
  unfold FlowScript.takeBranch
  split
  · exact lockstep.andThen (lockstep.branch depth context branch.body) fun _ => lockstep.pure true
  · exact lockstep.branches depth context rest

theorem goOnLooping (body : Block) (more : Nat) (signal : FlowSignal) :
    kept (FlowScript.goOnLooping depth context body more signal) := by
  refine lockstep.andThen ?_ fun signalled => ?_
  · split
    · exact lockstep.rounds depth context body more
    · exact lockstep.pure true
  · unfold endLoop
    split
    · exact lockstep.pure ()
    · exact lockstep.report _ _ _

end Lockstep

end FlowScript
