import FlowScript.Proofs.Run.Lockstep
import FlowScript.Proofs.Run.Site

/-!
# What all evaluation has in common

A property of computations that the single steps of evaluation have, and that is kept by
every way of putting computations together, is a property of all evaluation. One such
property is to lead to related machines only, where a relation passes through the single
changes of a machine. Then it relates the first machine of a run to all that the run reaches.
-/

set_option autoImplicit false

namespace FlowScript

open RunM

/-- The computations with the property are closed under composition, and the single steps
of evaluation are among them. -/
structure Closed (kept : ∀ {α : Type}, RunM α → Prop) : Prop where
  pure {α : Type} (value : α) : kept (Pure.pure value)
  throw {α : Type} (interruption : Interruption) :
    kept (MonadExcept.throw interruption : RunM α)
  get : kept (MonadState.get : RunM Machine)
  bind {α β : Type} {first : RunM α} {next : α → RunM β} :
    kept first → (∀ value, kept (next value)) → kept (first >>= next)
  tryCatch {α : Type} {action : RunM α} {handler : Interruption → RunM α} :
    kept action → (∀ interruption, kept (handler interruption)) →
    kept (MonadExcept.tryCatch action handler)
  modifyScopes (change : ScopeStack → ScopeStack) : kept (RunM.modifyScopes change)
  onStore {α : Type} {action : StoreM α} : StoreStep action → kept (RunM.onStore action)
  report (level : LogLevel) (message : String) (fields : List (String × LogValue)) :
    kept (RunM.report level message fields)
  reportAll (events : List LogEvent) : kept (RunM.reportAll events)
  recordRequest (service : Service) (request : JsonObject) :
    kept (RunM.recordRequest service request)
  wait (deadlines : List Nat) (millis : Nat) : kept (FlowScript.wait deadlines millis)

namespace Closed

variable {kept : ∀ {α : Type}, RunM α → Prop} (closed : Closed kept) {α : Type}

include closed

theorem getScopes : kept RunM.getScopes := closed.bind closed.get fun _ => closed.pure _

theorem composes : Sequences fun {_} action _ => kept action where
  pure := closed.pure
  fail _ _ := closed.throw _
  getStore := closed.bind closed.get fun _ => closed.pure _
  getScopes := closed.getScopes
  lookup name := by
    refine closed.bind closed.getScopes fun scopes => ?_
    split
    · exact closed.pure _
    · exact closed.throw _
  currentInstant _ := closed.bind closed.get fun _ => closed.pure _
  report := closed.report
  onStore := closed.onStore
  bind first next := closed.bind first next

/-! ## Scopes -/

theorem getDepth : kept RunM.getDepth := closed.bind closed.get fun _ => closed.pure _

theorem onScopesAt (location : Span) (change : ScopeStack → Except Cause ScopeStack) :
    kept (RunM.onScopesAt location change) :=
  closed.bind closed.getScopes fun _ =>
    closed.bind (closed.composes.ofExcept _ _) fun _ => closed.modifyScopes _

theorem restoringScopes {action : RunM α} (keeps : kept action) :
    kept (FlowScript.restoringScopes action) := by
  refine closed.bind closed.getDepth fun depth => closed.tryCatch keeps fun interruption => ?_
  cases interruption with
  | failed fault => exact closed.bind (closed.modifyScopes _) fun _ => closed.throw _
  | expired | exhausted => exact closed.throw _

theorem assignVariable (name : Identifier) (source : Value) (span : Span) :
    kept (FlowScript.assignVariable name source span) :=
  closed.bind (closed.composes.resolve _ _) fun current =>
    closed.bind (closed.composes.onStoreAt _ (.assign current source)) fun _ => closed.onScopesAt _ _

theorem bindParameters (definition : Workflow) (arguments : CallArguments) (location : Span) :
    kept (FlowScript.bindParameters definition arguments location) :=
  closed.composes.bindParameters (fun _ _ _ => closed.onScopesAt _ _) definition arguments location

section

variable {execute : Statement → RunM Unit} (executes : ∀ statement, kept (execute statement))

include executes

theorem runBlock (kind : ScopeKind) (block : Block) :
    kept (FlowScript.runBlock execute kind block) := by
  refine closed.bind (closed.restoringScopes (closed.bind (closed.modifyScopes _) fun _ =>
    closed.composes.statements executes _)) fun _ => ?_
  exact closed.bind closed.getScopes fun _ =>
    closed.bind (closed.modifyScopes _) fun _ => closed.pure _

theorem runCall (definition : Workflow) (arguments : CallArguments) (location : Span) :
    kept (FlowScript.runCall execute definition arguments location) := by
  refine closed.bind closed.getDepth fun depth => closed.bind (closed.restoringScopes ?_) fun _ =>
    closed.bind (closed.modifyScopes _) fun _ => closed.pure _
  exact closed.bind (closed.modifyScopes _) fun _ =>
    closed.bind (closed.bindParameters _ _ _) fun _ =>
      closed.bind (closed.composes.statements executes _) fun _ =>
        closed.bind closed.getScopes fun _ => closed.composes.checkResult _ _ _

theorem invoke (definition : Workflow) (arguments : CallArguments) (location : Span) :
    kept (FlowScript.invoke execute definition arguments location) :=
  closed.bind (closed.report _ _ _) fun _ => closed.runCall executes definition arguments location

end

/-! ## Awaiting -/

theorem withTimeout {context : Context} {timeout : Duration} {action : Context → RunM α}
    (keeps : ∀ inner, kept (action inner)) :
    kept (FlowScript.withTimeout context timeout action) := by
  refine closed.bind closed.get fun machine => closed.tryCatch ?_ fun interruption => ?_
  · rw [map_eq_pure_bind]
    exact closed.bind (keeps _) fun _ => closed.pure _
  · split
    · exact closed.pure _
    · exact closed.throw _

theorem enterWorkflow (definition : Workflow) (arguments : CallArguments) (location : Span) :
    kept (FlowScript.enterWorkflow definition arguments location) :=
  closed.bind (closed.report _ _ _) fun _ =>
    closed.bind (closed.modifyScopes _) fun _ => closed.bindParameters definition arguments location

theorem awaitInvocation {execute : Context → Statement → RunM Unit}
    (executes : ∀ context statement, kept (execute context statement)) (context : Context)
    (definition : Workflow) (arguments : CallArguments) (called : Span) (timeout : Duration)
    (location : Span) :
    kept (FlowScript.awaitInvocation execute context definition arguments called timeout
      location) := by
  refine closed.bind closed.getDepth fun depth => closed.bind (closed.withTimeout fun inner =>
    closed.invoke (executes inner) definition arguments called) fun answer => ?_
  cases answer with
  | some result => exact closed.pure result
  | none =>
      exact closed.bind (closed.modifyScopes _) fun _ => closed.bind (closed.report _ _ _) fun _ =>
        closed.onStore (.error _ _)

theorem askService (service : Service) (delegate : Delegate) (payload : JsonObject)
    (context : Context) : kept (FlowScript.askService service delegate payload context) :=
  closed.bind (closed.recordRequest _ _) fun _ => closed.bind closed.get fun _ =>
    closed.bind (closed.reportAll _) fun _ => closed.bind (closed.wait _ _) fun _ => closed.pure _

theorem askHost (context : Context) (kind : HostKind) (timeout : Duration) (location : Span)
    (service : Service) (delegate : Delegate) (reply : HostKind) (payload : JsonObject) :
    kept (FlowScript.askHost context kind timeout location service delegate reply payload) := by
  refine closed.bind (closed.withTimeout (closed.askService _ _ _)) fun answer => ?_
  split
  · exact closed.onStore (.reply reply _)
  · exact closed.bind (closed.report _ _ _) fun _ => closed.onStore (.error _ _)
  · exact closed.bind (closed.report _ _ _) fun _ => closed.onStore (.error _ _)

theorem awaitHost (context : Context) (kind : HostKind) (request : Value) (timeout : Duration)
    (location : Span) :
    kept (FlowScript.awaitHost context kind request timeout location) := by
  rw [awaitHost_eq]
  split
  · exact closed.throw _
  · exact closed.bind closed.composes.getStore fun _ => closed.bind (closed.report _ _ _) fun _ =>
      closed.askHost context kind timeout location _ _ _ _

/-! ## Expressions and statements -/

theorem lockstep : Lockstep Eq fun {_} action _ => kept action where
  toComposes := closed.composes.toComposes
  deadlines pair := ⟨_, pair.symm⟩
  exhausted := closed.throw _
  setReturn _ := closed.modifyScopes _
  assignVariable := closed.assignVariable
  wait _ _ := closed.wait _ _
  breaks := closed.modifyScopes _
  declare _ _ _ := closed.onScopesAt _ _
  runBlock kind block executes := closed.runBlock executes kind block
  awaitInvocation definition arguments called timeout location executes _ :=
    closed.awaitInvocation (fun _ => executes rfl) _ definition arguments called timeout location
  awaitHost kind request timeout location _ := closed.awaitHost _ kind request timeout location

end Closed

/-! ## Relations between machines -/

/-- The relation passes through every single change of a machine, in any order. -/
structure Develops (related : Machine → Machine → Prop) : Prop where
  refl (machine : Machine) : related machine machine
  trans {before between after : Machine} :
    related before between → related between after → related before after
  scopes (machine : Machine) (scopes : ScopeStack) : related machine { machine with scopes }
  clock (machine : Machine) (now : Nat) : related machine { machine with now }
  logs (machine : Machine) (events : Array LogEvent) :
    related machine { machine with logs := machine.logs ++ events }
  request (machine : Machine) (request : Service × JsonObject) :
    related machine { machine with requests := machine.requests.push request }
  store {α : Type} {action : StoreM α} (machine : Machine) :
    StoreStep action → related machine { machine with store := (action.run machine.store).2 }

theorem RunM.Returns.related {α : Type} {action : RunM α} {machine final : Machine} {value : α}
    {related : Machine → Machine → Prop} (returns : action.Returns machine value final)
    (kept : ∀ machine, After action.run machine fun _ final => related machine final) :
    related machine final :=
  (kept machine).of_run returns

namespace Develops

variable {related : Machine → Machine → Prop} (develops : Develops related)

include develops

/-- A computation leads from any machine to a related one, however it ends. -/
theorem closed :
    Closed fun {_} action => ∀ machine, After action.run machine fun _ final =>
      related machine final where
  pure _ machine := develops.refl machine
  throw _ machine := develops.refl machine
  get machine := develops.refl machine
  bind firstKept nextKept machine := by
    rw [after_run_bind]
    refine (firstKept machine).imp fun outcome middle before => ?_
    cases outcome with
    | ok value => exact (nextKept value middle).imp fun _ _ => develops.trans before
    | error => exact before
  tryCatch kept handled machine := by
    rw [after_run_tryCatch]
    refine (kept machine).imp fun outcome middle before => ?_
    cases outcome with
    | ok => exact before
    | error error => exact (handled error middle).imp fun _ _ => develops.trans before
  modifyScopes _ machine := develops.scopes machine _
  onStore step machine := develops.store machine step
  report level message fields machine := by
    have logged := develops.logs machine #[⟨level, message, fields⟩]
    rwa [← Array.push_eq_append] at logged
  reportAll events machine := develops.logs machine events.toArray
  recordRequest service request machine := develops.request machine (service, request)
  wait deadlines millis machine := by
    unfold After
    rw [run_wait]
    split <;> exact develops.clock machine _

/-! ## Between the sites of a run -/

theorem evaluates {outer inner : Site} (evaluates : outer.Evaluates inner) :
    related outer.machine inner.machine := by
  have closed := develops.closed
  have parts := closed.lockstep.expression
  cases evaluates with
  | argument returns =>
      exact returns.related (closed.bind (closed.composes.resolve _ _) fun _ =>
        closed.composes.arguments (parts _ _) _ _)
  | element returns => exact returns.related (closed.composes.elements (parts _ _) _)
  | entry returns => exact returns.related (closed.composes.entries (parts _ _) _ _)
  | operand _ returns =>
      exact returns.related (closed.bind (parts _ _ _) fun left =>
        closed.composes.operations (parts _ _) _ left _)
  | duration returns => exact returns.related (parts _ _ _)
  | unary | first | awaited | attempt => exact develops.refl _

theorem untaken {depth : Nat} {context : Context} {statement : Statement} {machine after : Machine}
    {branches : List Conditional}
    (returns : RunM.Returns (do
      announce context statement
      runBranches depth context branches) machine false after) : related machine after := by
  have closed := develops.closed
  exact returns.related (closed.bind (closed.report _ _ _) fun _ =>
    closed.lockstep.branches depth context branches)

theorem starts {outer inner : Site} (starts : outer.Starts inner) :
    related outer.machine inner.machine := by
  have closed := develops.closed
  cases starts with
  | declaration returns =>
      exact returns.related (closed.bind (closed.report _ _ _) fun _ =>
        closed.composes.resolveKind _)
  | value _ returns => exact returns.related (closed.report _ _ _)
  | condition _ returns => exact develops.untaken returns

theorem runs {outer inner : Site} (runs : outer.Runs inner) :
    related outer.machine inner.machine := by
  have closed := develops.closed
  cases runs with
  | first => exact develops.refl _
  | next returns _ => exact returns.related (closed.lockstep.statement _ _ _)
  | branch _ returns holds =>
      have tested := holds.related (closed.lockstep.condition (closed.lockstep.expression _ _) _)
      exact develops.trans (develops.untaken returns)
        (develops.trans tested (develops.scopes _ _))
  | otherwise returns => exact develops.trans (develops.untaken returns) (develops.scopes _ _)
  | round _ returns =>
      have repeated := returns.related (closed.bind (closed.report _ _ _) fun _ =>
        closed.lockstep.rounds _ _ _ _)
      exact develops.trans repeated (develops.scopes _ _)

theorem invokes {outer inner : Site} {definition : Workflow}
    (invokes : outer.Invokes definition inner) : related outer.machine inner.machine := by
  have closed := develops.closed
  cases invokes with
  | body evaluated _ entered =>
      have ready := evaluated.related (closed.lockstep.awaited (closed.lockstep.expression _ _) _ _)
      exact develops.trans ready (entered.related (closed.enterWorkflow _ _ _))

theorem enters {outer inner : Site} (enters : outer.Enters inner) :
    related outer.machine inner.machine := by
  cases enters with
  | evaluates evaluates => exact develops.evaluates evaluates
  | starts starts => exact develops.starts starts
  | runs runs => exact develops.runs runs
  | invokes invokes => exact develops.invokes invokes

theorem performs {run : Run} {site : Site} (performed : run.Performs site) :
    related (initialMachine run.instanceId) site.machine := by
  induction performed with
  | refl => exact develops.refl _
  | tail _ enters before => exact develops.trans before (develops.enters enters)

theorem final (site : Site) : related site.machine site.final := by
  obtain ⟨depth, context, work, machine⟩ := site
  have closed := develops.closed
  cases work with
  | expression expr => exact closed.lockstep.expression depth context expr machine
  | statement statement => exact closed.lockstep.statement depth context statement machine
  | sequence statements =>
      exact closed.composes.statements (closed.lockstep.statement depth context) statements machine

/-- A run leads from its first machine to related ones only. -/
theorem reaches {run : Run} {machine : Machine} (reached : run.Reaches machine) :
    related (initialMachine run.instanceId) machine := by
  obtain ⟨site, performed, position⟩ := reached
  have entered := develops.performs performed
  rcases position with rfl | rfl
  · exact entered
  · exact develops.trans entered (develops.final site)

end Develops

end FlowScript
