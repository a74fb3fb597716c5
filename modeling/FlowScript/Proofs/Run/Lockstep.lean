import FlowScript.Proofs.Run.StoreStep
import FlowScript.Proofs.Value.Insertion

/-!
# Two evaluations of one program

A relation of computations that relates the single steps of evaluation to themselves and is
kept by every way of putting computations together relates the evaluation of a program in
one context to its evaluation in another one. A property of computations is a relation that
does not look at its second side, so the same holds of properties.
-/

set_option autoImplicit false

namespace FlowScript

open RunM

/-! ## Composition -/

/-- The relation holds of the steps that look at variables, the store or the time, report
something or work on the store, and passes through sequences. -/
structure Composes (related : ∀ {α : Type}, RunM α → RunM α → Prop) : Prop where
  pure {α : Type} (value : α) : related (Pure.pure value : RunM α) (Pure.pure value)
  fail {α : Type} (cause : Cause) (location : Span) :
    related (RunM.fail cause location : RunM α) (RunM.fail cause location)
  getStore : related RunM.getStore RunM.getStore
  lookup (name : Identifier) : related (FlowScript.resolve name []) (FlowScript.resolve name [])
  currentInstant (context : Context) :
    related (FlowScript.currentInstant context) (FlowScript.currentInstant context)
  report (level : LogLevel) (message : String) (fields : List (String × LogValue)) :
    related (RunM.report level message fields) (RunM.report level message fields)
  onStore {α : Type} {action : StoreM α} :
    StoreStep action → related (RunM.onStore action) (RunM.onStore action)
  bind {α β : Type} {left right : RunM α} {leftNext rightNext : α → RunM β} :
    related left right → (∀ value, related (leftNext value) (rightNext value)) →
    related (left >>= leftNext) (right >>= rightNext)

namespace Composes

variable {related : ∀ {α : Type}, RunM α → RunM α → Prop} (composes : Composes related)

include composes

/-! ### Names, calls and parameters -/

theorem ofExcept {α : Type} (result : Except Cause α) (location : Span) :
    related (RunM.ofExcept result location) (RunM.ofExcept result location) := by
  cases result with
  | ok value => exact composes.pure value
  | error cause => exact composes.fail cause location

theorem onStoreAt {α : Type} (location : Span) {action : StoreExceptM α}
    (step : StoreStep action.run) :
    related (RunM.onStoreAt location action) (RunM.onStoreAt location action) :=
  composes.bind (composes.onStore step) fun result => composes.ofExcept result location

theorem followPath (value : Value) (segments : List Identifier) :
    related (FlowScript.followPath value segments) (FlowScript.followPath value segments) := by
  induction segments generalizing value with
  | nil => exact composes.pure value
  | cons segment rest ih => exact composes.bind (composes.onStoreAt _ (.property _ _)) ih

theorem resolve (head : Identifier) (tail : List Identifier) :
    related (FlowScript.resolve head tail) (FlowScript.resolve head tail) := by
  rw [resolve_eq]
  exact composes.bind (composes.lookup head) fun value => composes.followPath value tail

theorem resolveKind (name : Identifier) :
    related (FlowScript.resolveKind name) (FlowScript.resolveKind name) := by
  unfold FlowScript.resolveKind
  split
  · exact composes.pure _
  · exact composes.fail _ _

theorem callBuiltin (function : Builtin) (arguments : CallArguments) (span : Span) :
    related (FlowScript.callBuiltin function arguments span)
      (FlowScript.callBuiltin function arguments span) := by
  refine composes.bind composes.getStore fun store => ?_
  cases function with
  | print | println => exact composes.bind (composes.report _ _ _) fun _ => composes.pure _
  | panic => exact composes.fail _ _
  | strFormat =>
      exact composes.bind (composes.ofExcept _ _) fun _ => composes.onStore (.scalar _)

theorem callValue (callee : Value) (path : Path) (arguments : CallArguments) (span : Span) :
    related (FlowScript.callValue callee path arguments span)
      (FlowScript.callValue callee path arguments span) := by
  cases callee with
  | builtin function =>
      exact composes.bind (composes.report _ _ _) fun _ =>
        composes.callBuiltin function arguments span
  | member function receiver =>
      exact composes.bind (composes.report _ _ _) fun _ =>
        composes.onStoreAt _ (.member function receiver arguments)
  | workflow definition => exact composes.onStore (.invocation _ _ _)
  | void | error | stored | invocation => exact composes.fail _ _

theorem chooseArgument (arguments : CallArguments) (location : Span) (parameter : Parameter)
    (unnamed : List CallArgument) :
    related (FlowScript.chooseArgument arguments location parameter unnamed)
      (FlowScript.chooseArgument arguments location parameter unnamed) := by
  unfold FlowScript.chooseArgument
  split
  · exact composes.pure _
  · exact composes.pure _
  · exact composes.fail _ _

/-- Parameters are bound alike when variables are declared alike. -/
theorem bindParameters
    (declares : ∀ location name value, related (onScopesAt location (·.declare name value))
      (onScopesAt location (·.declare name value)))
    (definition : Workflow) (arguments : CallArguments) (location : Span) :
    related (FlowScript.bindParameters definition arguments location)
      (FlowScript.bindParameters definition arguments location) := by
  have each : ∀ (parameters : List Parameter) (unnamed : List CallArgument),
      related (bindEach arguments location parameters unnamed)
        (bindEach arguments location parameters unnamed) := by
    intro parameters
    induction parameters with
    | nil => exact fun _ => composes.pure ()
    | cons parameter rest ih =>
        intro unnamed
        rw [bindEach_cons]
        refine composes.bind (composes.resolveKind _) fun expected =>
          composes.bind (composes.chooseArgument _ _ _ _) fun chosen =>
            composes.bind ?_ fun _ => ih chosen.2
        unfold bindArgument
        split
        · exact composes.bind (composes.onStore (.detach _)) fun _ => declares _ _ _
        · exact composes.fail _ _
  unfold FlowScript.bindParameters
  dsimp only
  split
  · split
    · exact composes.fail _ _
    · exact each _ _
  · exact composes.fail _ _

theorem checkResult (definition : Workflow) (result : Option Value) (location : Span) :
    related (FlowScript.checkResult definition result location)
      (FlowScript.checkResult definition result location) := by
  rw [checkResult_eq]
  refine composes.bind ?_ fun declared => ?_
  · unfold declaredKind
    split
    · exact composes.resolveKind _
    · exact composes.pure _
  · unfold fitResult
    split
    · split
      · exact composes.pure _
      · exact composes.fail _ _
    · split
      · exact composes.pure _
      · exact composes.fail _ _

theorem expectDuration (value : Value) (location : Span) :
    related (FlowScript.expectDuration value location)
      (FlowScript.expectDuration value location) := by
  refine composes.bind composes.getStore fun store => ?_
  split
  · exact composes.pure _
  · exact composes.fail _ _

theorem typeTest (program : Program) (value : Value) (operand : Expr) :
    related (FlowScript.typeTest program value operand)
      (FlowScript.typeTest program value operand) := by
  unfold FlowScript.typeTest
  dsimp only
  split
  · exact composes.onStore (.scalar _)
  · exact composes.fail _ _

theorem assignEntry (parent : Value) (key : Identifier) (source : Value) (span : Span) :
    related (FlowScript.assignEntry parent key source span)
      (FlowScript.assignEntry parent key source span) := by
  refine composes.bind composes.getStore fun store => ?_
  split
  · exact composes.bind (composes.onStoreAt _ (.assign _ source)) fun value =>
      composes.onStore (.entry _ _ _ value)
  · exact composes.fail _ _

/-! ### Walking through parts -/

section

variable {left right : Expr → RunM Value}

theorem evaluateArguments {arguments : List Argument}
    (evaluates : ∀ argument ∈ arguments, related (left argument.value) (right argument.value))
    (done : CallArguments) :
    related (FlowScript.evaluateArguments left done arguments)
      (FlowScript.evaluateArguments right done arguments) := by
  induction arguments generalizing done with
  | nil => exact composes.pure done
  | cons argument rest ih =>
      rw [List.forall_mem_cons] at evaluates
      exact composes.bind evaluates.1 fun _ => ih evaluates.2 _

theorem evaluateCopy {expr : Expr} (evaluates : related (left expr) (right expr)) :
    related (FlowScript.evaluateCopy left expr) (FlowScript.evaluateCopy right expr) :=
  composes.bind evaluates fun value => composes.onStore (.detach value)

theorem evaluateElements {elements : List Expr}
    (evaluates : ∀ element ∈ elements, related (left element) (right element)) :
    related (FlowScript.evaluateElements left elements)
      (FlowScript.evaluateElements right elements) := by
  induction elements with
  | nil => exact composes.pure []
  | cons element rest ih =>
      rw [List.forall_mem_cons] at evaluates
      rw [evaluateElements_cons, evaluateElements_cons]
      exact composes.bind (composes.evaluateCopy evaluates.1) fun _ =>
        composes.bind (ih evaluates.2) fun _ => composes.pure _

theorem evaluateEntries {entries : List Entry}
    (evaluates : ∀ entry ∈ entries, related (left entry.value) (right entry.value))
    (done : Dictionary Value) :
    related (FlowScript.evaluateEntries left done entries)
      (FlowScript.evaluateEntries right done entries) := by
  induction entries generalizing done with
  | nil => exact composes.pure done
  | cons entry rest ih =>
      rw [List.forall_mem_cons] at evaluates
      rw [evaluateEntries_cons, evaluateEntries_cons]
      exact composes.bind (composes.evaluateCopy evaluates.1) fun _ => ih evaluates.2 _

/-- The dictionary is made of the entries that were evaluated before and of the others. -/
theorem evaluateDictionary {entries : List Entry}
    (evaluates : ∀ entry ∈ entries, related (left entry.value) (right entry.value))
    (done : List (String × Value)) :
    related
      (FlowScript.evaluateEntries left (.ofList done) entries >>= fun entries =>
        RunM.onStore (newDictionary .dictionary entries))
      (FlowScript.evaluateEntries right (.ofList done) entries >>= fun entries =>
        RunM.onStore (newDictionary .dictionary entries)) := by
  induction entries generalizing done with
  | nil => exact composes.onStore (.dictionary done)
  | cons entry rest ih =>
      rw [List.forall_mem_cons] at evaluates
      rw [evaluateEntries_cons, evaluateEntries_cons, bind_assoc, bind_assoc]
      refine composes.bind (composes.evaluateCopy evaluates.1) fun copy => ?_
      rw [← Dictionary.ofList_append_singleton]
      exact ih evaluates.2 _

theorem applyOperation {operation : Operation}
    (evaluates : related (left operation.operand) (right operation.operand)) (program : Program)
    (value : Value) :
    related (FlowScript.applyOperation left program value operation)
      (FlowScript.applyOperation right program value operation) := by
  unfold FlowScript.applyOperation
  split
  · exact composes.typeTest program value _
  · exact composes.bind evaluates fun _ => composes.onStoreAt _ (.binary _ _ _)
  · exact composes.bind evaluates fun _ => composes.onStoreAt _ (.binary _ _ _)

theorem applied (operation : Operation) (first second : Value) :
    related (RunM.onStoreAt operation.span (operation.applied first second))
      (RunM.onStoreAt operation.span (operation.applied first second)) := by
  unfold Operation.applied
  split
  · exact composes.onStoreAt _ (.binary _ _ _)
  · exact composes.onStoreAt _ (.binary _ _ _)

theorem applyOperations {operations : List Operation}
    (evaluates : ∀ operation ∈ operations,
      related (left operation.operand) (right operation.operand))
    (program : Program) (value : Value) :
    related (FlowScript.applyOperations left program value operations)
      (FlowScript.applyOperations right program value operations) := by
  induction operations generalizing value with
  | nil => exact composes.pure value
  | cons operation rest ih =>
      rw [List.forall_mem_cons] at evaluates
      rw [applyOperations_cons, applyOperations_cons]
      exact composes.bind (composes.applyOperation evaluates.1 program value) (ih evaluates.2)

end

theorem repeatUntilSignal {left right : RunM FlowSignal} (body : related left right)
    (rounds : Nat) :
    related (FlowScript.repeatUntilSignal left rounds)
      (FlowScript.repeatUntilSignal right rounds) := by
  induction rounds with
  | zero => exact composes.pure false
  | succ rounds ih =>
      refine composes.bind body fun signal => ?_
      split
      · exact ih
      · exact composes.pure true

theorem runFirstBranch {leftCondition rightCondition : Expr → RunM Bool}
    {leftRun rightRun : Block → RunM Unit} {branches : List Conditional}
    (tests : ∀ branch ∈ branches,
      related (leftCondition branch.condition) (rightCondition branch.condition))
    (runs : ∀ branch ∈ branches, related (leftRun branch.body) (rightRun branch.body)) :
    related (FlowScript.runFirstBranch leftCondition leftRun branches)
      (FlowScript.runFirstBranch rightCondition rightRun branches) := by
  induction branches with
  | nil => exact composes.pure false
  | cons branch rest ih =>
      rw [List.forall_mem_cons] at tests runs
      refine composes.bind tests.1 fun holds => ?_
      cases holds with
      | true => exact composes.bind runs.1 fun _ => composes.pure true
      | false => exact ih tests.2 runs.2

end Composes

/-! ### Properties of computations -/

namespace Composes

variable {kept : ∀ {α : Type}, RunM α → Prop} (composes : Composes fun {_} action _ => kept action)

include composes

theorem andThen {α β : Type} {first : RunM α} {next : α → RunM β} (firstKept : kept first)
    (nextKept : ∀ value, kept (next value)) : kept (first >>= next) :=
  @Composes.bind _ composes α β first first next next firstKept nextKept

section

variable {evaluate : Expr → RunM Value} (evaluates : ∀ expr, kept (evaluate expr))

include evaluates

theorem arguments (done : CallArguments) (arguments : List Argument) :
    kept (FlowScript.evaluateArguments evaluate done arguments) :=
  @Composes.evaluateArguments _ composes evaluate evaluate arguments (fun _ _ => evaluates _) done

theorem elements (elements : List Expr) : kept (FlowScript.evaluateElements evaluate elements) :=
  @Composes.evaluateElements _ composes evaluate evaluate elements fun _ _ => evaluates _

theorem entries (done : Dictionary Value) (entries : List Entry) :
    kept (FlowScript.evaluateEntries evaluate done entries) :=
  @Composes.evaluateEntries _ composes evaluate evaluate entries (fun _ _ => evaluates _) done

theorem operations (program : Program) (left : Value) (operations : List Operation) :
    kept (FlowScript.applyOperations evaluate program left operations) :=
  @Composes.applyOperations _ composes evaluate evaluate operations (fun _ _ => evaluates _)
    program left

end

end Composes

/-! ## Sequences of statements -/

/-- The relation also holds of looking at the scopes, where signals are. -/
structure Sequences (related : ∀ {α : Type}, RunM α → RunM α → Prop) : Prop
    extends Composes related where
  getScopes : related RunM.getScopes RunM.getScopes

namespace Sequences

variable {related : ∀ {α : Type}, RunM α → RunM α → Prop} (sequences : Sequences related)

include sequences

variable {left right : Statement → RunM Unit} {statements : List Statement}
  (executes : ∀ statement ∈ statements, related (left statement) (right statement))

include executes

theorem executeAll :
    related (FlowScript.executeAll left statements) (FlowScript.executeAll right statements) := by
  induction statements with
  | nil => exact sequences.pure ()
  | cons statement rest ih =>
      rw [List.forall_mem_cons] at executes
      refine sequences.bind executes.1 fun _ => sequences.bind sequences.getScopes fun scopes => ?_
      split
      · exact ih executes.2
      · exact sequences.pure ()

theorem executeRest :
    related (FlowScript.executeRest left statements) (FlowScript.executeRest right statements) := by
  refine sequences.bind sequences.getScopes fun scopes => ?_
  split
  · exact sequences.executeAll executes
  · exact sequences.pure ()

end Sequences

namespace Sequences

variable {kept : ∀ {α : Type}, RunM α → Prop}
  (sequences : Sequences fun {_} action _ => kept action)

include sequences

variable {execute : Statement → RunM Unit} (executes : ∀ statement, kept (execute statement))

include executes

theorem statements (statements : List Statement) : kept (FlowScript.executeAll execute statements) :=
  @Sequences.executeAll _ sequences execute execute statements fun _ _ => executes _

theorem rest (rest : List Statement) : kept (FlowScript.executeRest execute rest) :=
  @Sequences.executeRest _ sequences execute execute rest fun _ _ => executes _

end Sequences

/-! ## Straight-line work -/

/-- Contexts that differ in their deadlines only, and a relation that is kept by what
evaluation does without entering or leaving a scope, other than making variables. -/
structure Straight (paired : Context → Context → Prop)
    (related : ∀ {α : Type}, RunM α → RunM α → Prop) : Prop extends Composes related where
  deadlines {left right : Context} : paired left right →
    ∃ deadlines, right = { left with deadlines }
  setReturn (value : Value) : related (setReturn value) (setReturn value)
  assignVariable (name : Identifier) (source : Value) (span : Span) :
    related (assignVariable name source span) (assignVariable name source span)
  wait {left right : Context} (millis : Nat) : paired left right →
    related (wait left.deadlines millis) (wait right.deadlines millis)

namespace Straight

variable {paired : Context → Context → Prop} {related : ∀ {α : Type}, RunM α → RunM α → Prop}
  (straight : Straight paired related) {left right : Context}

include straight

theorem assignTarget (target : Path) (source : Value) (span : Span) :
    related (FlowScript.assignTarget target source span)
      (FlowScript.assignTarget target source span) := by
  unfold FlowScript.assignTarget
  split
  · exact straight.assignVariable _ _ _
  · exact straight.bind (straight.resolve _ _) fun parent => straight.assignEntry parent _ _ _

theorem finish (pair : paired left right) (statement : Statement) (value : Value) :
    related (statement.finish left value) (statement.finish right value) := by
  have waits := fun millis => straight.wait millis pair
  cases statement with
  | assignment target source span => exact straight.assignTarget target value span
  | delay duration span =>
      exact straight.bind (straight.expectDuration value _) fun time =>
        straight.bind (straight.report _ _ _) fun _ => waits time.millis
  | returning result span => exact straight.setReturn value
  | raising raised span =>
      refine straight.bind straight.getStore fun store => ?_
      split
      · exact straight.setReturn _
      · exact straight.bind (straight.onStore (.error _ _)) straight.setReturn
      · exact straight.fail _ _
  | importing | declaration | breaking | expression | branch | loop | workflow =>
      exact straight.pure ()

section

variable {depth : Nat}
  (parts : ∀ expr, related (evaluate depth left expr) (evaluate depth right expr))

include parts

theorem testCondition (expr : Expr) :
    related (FlowScript.testCondition depth left expr)
      (FlowScript.testCondition depth right expr) :=
  straight.bind (parts expr) fun value => straight.onStoreAt _ (.truth value)

theorem evaluateAwait (operand duration : Expr) :
    related (FlowScript.evaluateAwait depth left operand duration)
      (FlowScript.evaluateAwait depth right operand duration) :=
  straight.bind (parts operand) fun awaited => straight.bind (parts duration) fun limit =>
    straight.bind (straight.expectDuration limit _) fun timeout =>
      straight.pure (awaited, timeout)

/-- Of expressions, only `await` leads to statements. -/
theorem evaluate_step (pair : paired left right)
    (awaits : ∀ awaited operand timeout location,
      related (awaitValue (execute depth) left awaited operand timeout location)
        (awaitValue (execute depth) right awaited operand timeout location))
    (expr : Expr) :
    related (evaluate (depth + 1) left expr) (evaluate (depth + 1) right expr) := by
  obtain ⟨deadlines, rfl⟩ := straight.deadlines pair
  cases expr with
  | literal value span => exact straight.onStore (.scalar (.ofLiteral value))
  | path name => exact straight.resolve _ _
  | call callee arguments argumentsSpan span =>
      exact straight.bind (straight.resolve _ _) fun function =>
        straight.bind (straight.evaluateArguments (fun _ _ => parts _) _) fun _ =>
          straight.callValue function callee _ span
  | array elements span =>
      exact straight.bind (straight.evaluateElements fun _ _ => parts _) fun _ =>
        straight.onStore (.array _)
  | dictionary entries span => exact straight.evaluateDictionary (fun _ _ => parts _) []
  | unary op operand span =>
      exact straight.bind (parts operand) fun value => straight.onStoreAt _ (.unary op value)
  | chain first operations span =>
      exact straight.bind (parts first) fun value =>
        straight.applyOperations (fun _ _ => parts _) left.program value
  | await operand duration span =>
      rw [evaluate_await, evaluate_await]
      exact straight.bind (straight.evaluateAwait parts operand duration) fun ready =>
        awaits ready.1 operand ready.2 span
  | attempt operand span =>
      refine straight.bind (parts operand) fun value => ?_
      dsimp only
      split
      · exact straight.bind (straight.report _ _ _) fun _ =>
          straight.bind (straight.setReturn value) fun _ => straight.pure value
      · exact straight.pure value

end

end Straight

/-! ### Properties of computations -/

namespace Straight

variable {kept : ∀ {α : Type}, RunM α → Prop}
  (straight : Straight Eq fun {_} action _ => kept action) {depth : Nat} {context : Context}
  (parts : ∀ expr, kept (evaluate depth context expr))

include straight parts

theorem condition (expr : Expr) : kept (FlowScript.testCondition depth context expr) :=
  @Straight.testCondition _ _ straight context context depth parts expr

theorem awaited (operand duration : Expr) :
    kept (FlowScript.evaluateAwait depth context operand duration) :=
  @Straight.evaluateAwait _ _ straight context context depth parts operand duration

end Straight

/-! ## Expressions and statements -/

/-- Further kept by everything evaluation does with scopes and by awaiting. -/
structure Lockstep (paired : Context → Context → Prop)
    (related : ∀ {α : Type}, RunM α → RunM α → Prop) : Prop extends Straight paired related where
  exhausted {α : Type} : related (throw .exhausted : RunM α) (throw .exhausted)
  breaks : related (modifyScopes (·.setFlow .breaking)) (modifyScopes (·.setFlow .breaking))
  declare (location : Span) (name : String) (value : Value) :
    related (onScopesAt location (·.declare name value))
      (onScopesAt location (·.declare name value))
  runBlock {left right : Statement → RunM Unit} (kind : ScopeKind) (block : Block) :
    (∀ statement, related (left statement) (right statement)) →
    related (runBlock left kind block) (runBlock right kind block)
  awaitInvocation {leftExecute rightExecute : Context → Statement → RunM Unit}
    {left right : Context} (definition : Workflow) (arguments : CallArguments) (called : Span)
    (timeout : Duration) (location : Span) :
    (∀ {left right : Context}, paired left right →
      ∀ statement, related (leftExecute left statement) (rightExecute right statement)) →
    paired left right →
    related (awaitInvocation leftExecute left definition arguments called timeout location)
      (awaitInvocation rightExecute right definition arguments called timeout location)
  awaitHost {left right : Context} (kind : HostKind) (request : Value) (timeout : Duration)
    (location : Span) : paired left right →
    related (awaitHost left kind request timeout location)
      (awaitHost right kind request timeout location)

namespace Lockstep

variable {paired : Context → Context → Prop} {related : ∀ {α : Type}, RunM α → RunM α → Prop}
  (lockstep : Lockstep paired related)

include lockstep

theorem declareVariable {left right : Context} (pair : paired left right) (name : Identifier)
    (kind : Kind) (span : Span) (initializer : Value) :
    related (FlowScript.declareVariable left name kind span initializer)
      (FlowScript.declareVariable right name kind span initializer) := by
  obtain ⟨deadlines, rfl⟩ := lockstep.deadlines pair
  exact lockstep.bind (lockstep.currentInstant left) fun now =>
    lockstep.bind (lockstep.onStoreAt _ (.construct now kind initializer)) fun _ =>
      lockstep.declare _ _ _

section

variable {depth : Nat}
  (executes : ∀ {left right : Context}, paired left right →
    ∀ statement, related (execute depth left statement) (execute depth right statement))
  {left right : Context} (pair : paired left right)

include executes pair

theorem awaitValue (awaited : Value) (operand : Expr) (timeout : Duration) (location : Span) :
    related (FlowScript.awaitValue (execute depth) left awaited operand timeout location)
      (FlowScript.awaitValue (execute depth) right awaited operand timeout location) := by
  unfold FlowScript.awaitValue
  split
  · exact lockstep.awaitInvocation _ _ _ timeout location executes pair
  · exact lockstep.awaitInvocation _ _ _ timeout location executes pair
  · split
    · exact lockstep.awaitHost _ _ timeout location pair
    · exact lockstep.fail _ _
  · exact lockstep.fail _ _

theorem runBranch (block : Block) :
    related (FlowScript.runBranch depth left block) (FlowScript.runBranch depth right block) :=
  lockstep.bind (lockstep.runBlock .block block (executes pair)) fun _ => lockstep.pure ()

theorem runOtherwise (otherwise : Option Block) (chosen : Bool) :
    related (FlowScript.runOtherwise depth left otherwise chosen)
      (FlowScript.runOtherwise depth right otherwise chosen) := by
  unfold FlowScript.runOtherwise
  split
  · exact lockstep.runBranch executes pair _
  · exact lockstep.pure ()

theorem runRounds (body : Block) (rounds : Nat) :
    related (FlowScript.runRounds depth left body rounds)
      (FlowScript.runRounds depth right body rounds) :=
  lockstep.repeatUntilSignal (lockstep.runBlock .loop body (executes pair)) rounds

variable (evaluates : ∀ {left right : Context}, paired left right →
  ∀ expr, related (evaluate depth left expr) (evaluate depth right expr))

include evaluates

theorem runBranches (branches : List Conditional) :
    related (FlowScript.runBranches depth left branches)
      (FlowScript.runBranches depth right branches) :=
  lockstep.runFirstBranch
    (fun _ _ => lockstep.testCondition (evaluates pair) _)
    fun _ _ => lockstep.runBranch executes pair _

theorem execute_step (statement : Statement) :
    related (execute (depth + 1) left statement) (execute (depth + 1) right statement) := by
  have values := evaluates pair
  refine lockstep.bind ?_ fun _ => ?_
  · obtain ⟨deadlines, rfl⟩ := lockstep.deadlines pair
    exact lockstep.report _ _ _
  cases statement with
  | importing path span => exact lockstep.report _ _ _
  | declaration name typeName value span =>
      have declares := lockstep.declareVariable pair name
      refine lockstep.bind (lockstep.resolveKind typeName) fun kind => ?_
      cases value with
      | some value => exact lockstep.bind (values value) (declares kind span)
      | none => exact lockstep.bind (lockstep.pure Value.void) (declares kind span)
  | assignment target value span =>
      exact lockstep.bind (values value) (lockstep.finish pair (.assignment target value span))
  | delay duration span =>
      exact lockstep.bind (values duration) (lockstep.finish pair (.delay duration span))
  | returning value span =>
      exact lockstep.bind (values value) (lockstep.finish pair (.returning value span))
  | raising value span =>
      exact lockstep.bind (values value) (lockstep.finish pair (.raising value span))
  | expression value span =>
      exact lockstep.bind (values value) (lockstep.finish pair (.expression value span))
  | breaking span => exact lockstep.breaks
  | branch first others otherwise span =>
      exact lockstep.bind (lockstep.runBranches executes pair evaluates (first :: others))
        (lockstep.runOtherwise executes pair otherwise)
  | loop body span =>
      have rounds := lockstep.runRounds executes pair body
      obtain ⟨deadlines, rfl⟩ := lockstep.deadlines pair
      refine lockstep.bind (rounds left.maxLoopCount) fun signalled => ?_
      split
      · exact lockstep.pure ()
      · exact lockstep.report _ _ _
  | workflow definition => exact lockstep.declare _ _ _

end

theorem evaluation (depth : Nat) {left right : Context} (pair : paired left right) :
    (∀ expr, related (evaluate depth left expr) (evaluate depth right expr)) ∧
      ∀ statement, related (execute depth left statement) (execute depth right statement) := by
  induction depth generalizing left right with
  | zero => exact ⟨fun _ => lockstep.exhausted, fun _ => lockstep.exhausted⟩
  | succ depth ih =>
      have evaluates : ∀ {left right : Context}, paired left right →
          ∀ expr, related (evaluate depth left expr) (evaluate depth right expr) :=
        fun pair => (ih pair).1
      have executes : ∀ {left right : Context}, paired left right →
          ∀ statement, related (execute depth left statement) (execute depth right statement) :=
        fun pair => (ih pair).2
      exact ⟨lockstep.evaluate_step (evaluates pair) pair (lockstep.awaitValue executes pair),
        lockstep.execute_step executes pair evaluates⟩

end Lockstep

/-! ### Properties of computations -/

namespace Lockstep

variable {kept : ∀ {α : Type}, RunM α → Prop}
  (lockstep : Lockstep Eq fun {_} action _ => kept action) (depth : Nat) (context : Context)

include lockstep

theorem expression (expr : Expr) : kept (evaluate depth context expr) :=
  (lockstep.evaluation depth (Eq.refl context)).1 expr

theorem statement (statement : Statement) : kept (execute depth context statement) :=
  (lockstep.evaluation depth (Eq.refl context)).2 statement

theorem awaitedValue (awaited : Value) (operand : Expr) (timeout : Duration) (location : Span) :
    kept (FlowScript.awaitValue (execute depth) context awaited operand timeout location) :=
  lockstep.awaitValue (fun _ => lockstep.statement depth _) (Eq.refl context) awaited operand
    timeout location

theorem branch (block : Block) : kept (FlowScript.runBranch depth context block) :=
  lockstep.runBranch (fun _ => lockstep.statement depth _) (Eq.refl context) block

theorem otherwise (otherwise : Option Block) (chosen : Bool) :
    kept (FlowScript.runOtherwise depth context otherwise chosen) :=
  lockstep.runOtherwise (fun _ => lockstep.statement depth _) (Eq.refl context) otherwise chosen

theorem rounds (body : Block) (rounds : Nat) :
    kept (FlowScript.runRounds depth context body rounds) :=
  lockstep.runRounds (fun _ => lockstep.statement depth _) (Eq.refl context) body rounds

theorem branches (branches : List Conditional) :
    kept (FlowScript.runBranches depth context branches) :=
  lockstep.runBranches (fun _ => lockstep.statement depth _) (Eq.refl context)
    (fun _ => lockstep.expression depth _) branches

end Lockstep

end FlowScript
