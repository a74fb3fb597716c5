import FlowScript.Proofs.Run.Plain

/-!
# Evaluation is balanced

Scopes are entered and left in four ways: a block pops its scope when it ends and
drops it when it fails, a call drops its scope, and an `await` that runs out drops
whatever the abandoned call was in. Together they balance every evaluation.
-/

set_option autoImplicit false

namespace FlowScript

open RunM

/-! ## Scopes around statements -/

namespace Balances

theorem composes : Sequences fun {_} action _ => Balances action :=
  .of_plain (fun plain => of_quiet plain.quiet) fun first next => bind first next

theorem declare (location : Span) (name : String) (value : Value) :
    Balances (RunM.onScopesAt location (·.declare name value)) :=
  .onScopesAt fun _ _ declared => ScopeStack.balanced_declare declared

theorem assignVariable (name : Identifier) (source : Value) (span : Span) :
    Balances (FlowScript.assignVariable name source span) :=
  .bind (composes.resolve _ _) fun _ =>
    .bind (.of_quiet (.onStoreAt _ _)) fun _ =>
      .onScopesAt fun _ _ rebound => ScopeStack.balanced_rebind rebound

end Balances

/-- How the work inside a scope of its own ends: with a value in that scope, with a
failure outside of it, and abandoned anywhere above it. -/
theorem after_entered {α : Type} {body : RunM α} (balances : Balances body) (kind : ScopeKind)
    (machine : Machine) :
    After (restoringScopes (do
      modifyScopes (·.push kind)
      body)).run machine fun outcome final =>
        match outcome with
        | .ok _ => (machine.scopes.push kind).Balanced final.scopes
        | .error (.failed _) => machine.scopes.Balanced final.scopes
        | .error _ => (machine.scopes.push kind).Above final.scopes := by
  simp only [restoringScopes, after_getDepth, after_modifyScopes, after_run_bind,
    after_run_tryCatch]
  refine (balances { machine with scopes := machine.scopes.push kind }).imp ?_
  rintro outcome final ⟨above, balanced⟩
  cases outcome with
  | ok value => exact balanced rfl
  | error interruption =>
      cases interruption with
      | failed fault => exact (balanced rfl).truncate
      | expired | exhausted => exact above

section

variable {execute : Statement → RunM Unit} (executes : ∀ statement, Balances (execute statement))

include executes

theorem balances_executeAll (statements : List Statement) :
    Balances (executeAll execute statements) :=
  Balances.composes.statements executes statements

theorem balances_runBlock (kind : ScopeKind) (block : Block) :
    Balances (runBlock execute kind block) := by
  intro machine
  unfold runBlock
  rw [after_run_bind]
  refine (after_entered (balances_executeAll executes block.statements) kind machine).imp ?_
  intro outcome final ends
  cases outcome with
  | ok =>
      have balanced := ends.pop
      exact ⟨balanced.above, fun _ => balanced⟩
  | error interruption =>
      cases interruption with
      | failed fault => exact ⟨ends.above, fun _ => ends⟩
      | expired | exhausted => exact ⟨ends.leave, fun impossible => by cases impossible⟩

theorem balances_callBody (definition : Workflow) (arguments : CallArguments)
    (location : Span) : Balances (callBody execute definition arguments location) :=
  .bind (Balances.composes.bindParameters .declare definition arguments location) fun _ =>
    .bind (balances_executeAll executes _) fun _ =>
      .bind (.of_quiet .getScopes) fun _ => Balances.composes.checkResult _ _ _

theorem balances_invoke (definition : Workflow) (arguments : CallArguments) (location : Span) :
    Balances (invoke execute definition arguments location) := by
  rw [invoke_eq]
  refine .bind (.of_quiet (.report _ _ _)) fun _ => ?_
  intro machine
  unfold runCall
  simp only [after_getDepth, after_run_bind]
  have body := balances_callBody executes definition arguments location
  refine (after_entered body .function machine).imp ?_
  intro outcome final ends
  cases outcome with
  | ok =>
      have balanced := ends.truncate
      exact ⟨balanced.above, fun _ => balanced⟩
  | error interruption =>
      cases interruption with
      | failed fault => exact ⟨ends.above, fun _ => ends⟩
      | expired | exhausted => exact ⟨ends.leave, fun impossible => by cases impossible⟩

end

/-! ## Awaiting -/

theorem after_withTimeout {α : Type} {context : Context} {timeout : Duration}
    {action : Context → RunM α} (balances : ∀ inner, Balances (action inner))
    (machine : Machine) :
    After (withTimeout context timeout action).run machine fun outcome final =>
      machine.scopes.Above final.scopes ∧
        (settled outcome → outcome ≠ .ok none → machine.scopes.Balanced final.scopes) := by
  simp only [withTimeout, map_eq_pure_bind, after_run_bind, after_run_get, after_run_pure,
    after_run_tryCatch]
  refine (balances _ machine).imp ?_
  rintro outcome final ⟨above, balanced⟩
  cases outcome with
  | ok value => exact ⟨above, fun _ _ => balanced rfl⟩
  | error interruption =>
      dsimp only
      split
      · exact ⟨above, fun _ impossible => absurd rfl impossible⟩
      · exact ⟨above, fun ended _ => balanced ended⟩

theorem balances_awaitInvocation {execute : Context → Statement → RunM Unit}
    (executes : ∀ context statement, Balances (execute context statement)) (context : Context)
    (definition : Workflow) (arguments : CallArguments) (called : Span) (timeout : Duration)
    (location : Span) :
    Balances (awaitInvocation execute context definition arguments called timeout location) := by
  intro machine
  unfold awaitInvocation
  simp only [after_getDepth, after_run_bind]
  refine (after_withTimeout (fun inner =>
    balances_invoke (executes inner) definition arguments called) machine).imp ?_
  rintro outcome final ⟨above, balanced⟩
  cases outcome with
  | error interruption => exact ⟨above, fun ended => balanced ended (by simp)⟩
  | ok answer =>
      cases answer with
      | some result => exact ⟨above, fun _ => balanced rfl (by simp)⟩
      | none =>
          -- The scopes of the abandoned call are dropped before anything else.
          have dropped := above.balanced
          have answers : Quiet (do
              report .debug "await timed out" [("workflow", .text definition.name.name)]
              timeoutError location) := .bind (.report _ _ _) fun _ => .onStore _
          dsimp only
          rw [after_run_bind, after_modifyScopes]
          refine (answers { final with
            scopes := final.scopes.truncate machine.scopes.depth }).imp fun _ last same => ?_
          rw [same]
          exact ⟨dropped.above, fun _ => dropped⟩

theorem quiet_askService (service : Service) (delegate : Delegate) (payload : JsonObject)
    (context : Context) : Quiet (askService service delegate payload context) :=
  .bind (fun _ => rfl) fun _ => .bind (fun _ => rfl) fun _ => .bind (fun _ => rfl) fun _ =>
    .bind (.wait _ _) fun _ => .pure _

theorem quiet_awaitHost (context : Context) (kind : HostKind) (request : Value)
    (timeout : Duration) (location : Span) :
    Quiet (awaitHost context kind request timeout location) := by
  unfold awaitHost
  dsimp only
  split
  · exact .throw _
  · refine .bind .getStore fun store => .bind (.report _ _ _) fun _ => ?_
    refine .bind (.withTimeout (quiet_askService _ _ _)) fun answer => ?_
    split
    · exact .onStore _
    · exact .bind (.report _ _ _) fun _ => .onStore _
    · exact .bind (.report _ _ _) fun _ => .onStore _

/-! ## Expressions and statements -/

theorem Balances.lockstep : Lockstep Eq fun {_} action _ => Balances action where
  toComposes := composes.toComposes
  deadlines pair := ⟨_, pair.symm⟩
  exhausted := throw _
  setReturn value := modifyScopes (·.balanced_setReturn value)
  breaks := modifyScopes (·.balanced_setFlow .breaking)
  declare := declare
  assignVariable := assignVariable
  wait millis _ := .of_quiet (.wait _ millis)
  runBlock kind block executes := balances_runBlock executes kind block
  awaitInvocation definition arguments called timeout location executes _ :=
    balances_awaitInvocation (fun _ => executes rfl) _ definition arguments called timeout location
  awaitHost kind request timeout location _ :=
    .of_quiet (quiet_awaitHost _ kind request timeout location)

theorem evaluation_balances (depth : Nat) (context : Context) :
    (∀ expr, Balances (evaluate depth context expr)) ∧
      ∀ statement, Balances (execute depth context statement) :=
  Balances.lockstep.evaluation depth rfl

/-- Whatever is evaluated on whatever machine, an evaluation that is not itself
abandoned leaves the scopes balanced. -/
theorem evaluation_scopes_balanced (depth : Nat) (context : Context) (machine : Machine) :
    (∀ expr, After (evaluate depth context expr).run machine fun outcome final =>
      settled outcome → machine.scopes.Balanced final.scopes) ∧
    ∀ statement, After (execute depth context statement).run machine fun outcome final =>
      settled outcome → machine.scopes.Balanced final.scopes := by
  obtain ⟨evaluates, executes⟩ := evaluation_balances depth context
  exact ⟨fun expr => (evaluates expr machine).2, fun statement => (executes statement machine).2⟩

def slowWorkflow : Workflow :=
  let wait : Block := ⟨[.delay (.literal (.duration ⟨1, .sec⟩) .origin) .origin], .origin⟩
  let branch : Conditional := ⟨.literal (.boolean true) .origin, wait, .origin⟩
  ⟨⟨"slow", .origin⟩, none, ⟨[.loop ⟨[.branch branch [] none .origin], .origin⟩ .origin], .origin⟩,
    .origin⟩

def slowAwait : Machine × Except Interruption Value × Machine :=
  let context : Context := ⟨⟨"", [], ⟨[], .origin⟩⟩, Host.none, 10, ⟨0, 0⟩, []⟩
  let known : Dictionary Value := .ofList [("slow", .workflow slowWorkflow)]
  let current : Scope := { Scope.fresh .function 0 with bindings := known }
  let machine : Machine := ⟨⟨current, [], #[none]⟩, Store.empty, 0, #[], #[]⟩
  let operand : Expr := .path ⟨⟨"slow", .origin⟩, [], .origin⟩
  let limit : Expr := .literal (.duration ⟨5, .ms⟩) .origin
  (machine, (evaluate 10 context (.await operand limit .origin)).run.run machine)

/-- The call is abandoned inside a function, a loop and a branch. -/
theorem slowAwait_scopes_balanced :
    slowAwait.2.2.now = 5 ∧ settled slowAwait.2.1 ∧
      slowAwait.1.scopes.Balanced slowAwait.2.2.scopes := by
  have ends : settled slowAwait.2.1 := by decide +kernel
  exact ⟨by decide +kernel, ends, (evaluation_scopes_balanced _ _ _).1 _ ends⟩

end FlowScript
