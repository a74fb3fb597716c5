import FlowScript.Proofs.Flow.Agreement
import FlowScript.Proofs.Flow.Direct
import FlowScript.Proofs.Storage.Reach

/-!
# Signals refine direct control flow

Scripts without `try` run in the same way with signals and return slots as under
the direct semantics. The invariant while a function runs: its scopes have no
signal and its slot is empty until a statement does not complete normally.
-/

set_option autoImplicit false

namespace FlowScript

open RunM

/-! ## Completions and signals -/

namespace Completion

def signal : Completion → FlowSignal
  | .normal => .proceed
  | .breaking => .breaking
  | .returning _ => .returning

/-- What a completion becomes outside of the scope it happened in. -/
def leaving : ScopeKind → Completion → Completion
  | .function, _ => .normal
  | .loop, .breaking => .normal
  | _, completion => completion

end Completion

/-- Signal and return slot show the completion. -/
structure Flows (completion : Completion) (machine : Machine) : Prop where
  flow : machine.scopes.flow = completion.signal
  result : machine.scopes.returnValue? = completion.result?

structure Ready (machine : Machine) : Prop where
  sound : machine.Sound Workflow.TryFree
  flows : Flows .normal machine

theorem Ready.flows_calm {before after : Machine} (ready : Ready before)
    (calm : before.scopes.Calm after.scopes) : Flows .normal after :=
  ⟨calm.flow.trans ready.flows.flow,
    (calm.returnValue? ready.sound.slotted).trans ready.flows.result⟩

theorem Ready.calm {before after : Machine} (ready : Ready before)
    (calm : before.scopes.Calm after.scopes) (sound : after.Sound Workflow.TryFree) :
    Ready after :=
  ⟨sound, ready.flows_calm calm⟩

theorem Mirrors.completes {left right : RunM Unit} {machine other : Machine}
    (mirrors : Mirrors left right machine other) (ready : Ready machine) :
    Simulates (fun _ completion final => Flows completion final) left
      (right >>= fun _ => pure .normal) machine other := by
  rw [← bind_pure_unit (x := left)]
  refine mirrors.bindTo ?_
  intro _ final otherFinal _ calm finals
  exact .ok (ready.flows_calm calm) finals

theorem flows_setReturn {machine : Machine} (sound : machine.Sound Workflow.TryFree)
    (value : Value) :
    Flows (.returning value) { machine with scopes := machine.scopes.setReturn value } := by
  have inBounds := sound.slotted machine.scopes.current List.mem_cons_self
  exact ⟨rfl, ScopeStack.returnValue?_setReturn inBounds value⟩

theorem simulates_setReturn {machine other : Machine} (ready : Ready machine)
    (similar : machine.Similar other) (value : Value) :
    Simulates (fun _ completion final => Flows completion final) (setReturn value)
      (pure (.returning value)) machine other :=
  .ok (flows_setReturn ready.sound value)
    ⟨similar.bindings, similar.store, similar.now, similar.logs, similar.requests⟩

/-- An error is raised as it is, a string becomes the message of a new one. -/
theorem simulates_raising {machine other : Machine} (ready : Ready machine)
    (similar : machine.Similar other) (context : Context) (expr : Expr) (span : Span)
    (raised : Value) :
    Simulates (fun _ completion final => Flows completion final)
      (Statement.finish context (.raising expr span) raised) (do
        let store ← getStore
        match raised, store.string? raised with
        | .error _ _ _, _ => pure (.returning raised)
        | _, some message => do
            let error ← onStore (newError message (some span))
            pure (.returning error)
        | _, none => fail .raisedKind expr.span) machine other := by
  refine (Respects.getStore machine other similar).bindTo ?_
  intro store _ otherFinal got _ finals
  cases got
  have raisesMessage : ∀ message, Simulates (fun _ completion final => Flows completion final)
      (onStore (newError message (some span)) >>= setReturn)
      (onStore (newError message (some span)) >>= fun error => pure (.returning error))
      machine otherFinal := by
    intro message
    refine (Respects.onStore _ machine otherFinal finals).bindTo ?_
    intro error made otherMade returns calm mades
    have preserves := Preserves.onStore ready.sound (.refl machine)
      ((newError_copied ready.sound.store message (some span)).imp fun _ _ copied => copied.gives)
    exact simulates_setReturn (ready.calm calm (preserves.returned returns).1) mades error
  generalize machine.store.string? raised = text
  cases raised with
  | error => exact simulates_setReturn ready finals _
  | _ =>
      cases text with
      | some message => exact raisesMessage message
      | none => exact .throw finals _

def MirrorsStatements (left : Statement → RunM Unit) (right : Statement → RunM Completion) :
    Prop :=
  ∀ (statement : Statement) {machine other : Machine}, statement.TryFree → Ready machine →
    machine.Similar other → Simulates (fun _ completion final => Flows completion final)
      (left statement) (right statement) machine other

theorem Balances.depth_returns {α : Type} {action : RunM α} (balances : Balances action)
    {machine final : Machine} {value : α} (returns : action.Returns machine value final) :
    final.scopes.depth = machine.scopes.depth :=
  ((After.of_run (balances machine) returns).2 rfl).depth

theorem Direct.run_inScope {α : Type} (action : RunM α) (machine : Machine) :
    (Direct.inScope action).run.run machine =
      match action.run.run (machine.entering .block) with
      | (.ok value, final) => (.ok value, final.leaving machine.scopes.depth)
      | (.error interruption, final) =>
          (.error interruption, final.leaving machine.scopes.depth) := by
  have unfolded : (Direct.inScope action).run.run machine = (do
      let result ← tryCatch action fun interruption => do
        modifyScopes (·.truncate machine.scopes.depth)
        throw interruption
      modifyScopes (·.truncate machine.scopes.depth)
      pure result : RunM α).run.run (machine.entering .block) := rfl
  rw [unfolded, run_bind_eq, run_tryCatch_eq]
  cases action.run.run (machine.entering .block) with
  | mk outcome final => cases outcome <;> rfl

theorem Machine.Similar.entering {left right : Machine} (similar : left.Similar right)
    (leftKind rightKind : ScopeKind) :
    (left.entering leftKind).Similar (right.entering rightKind) where
  bindings := by
    have same := similar.bindings
    simp only [Machine.entering, ScopeStack.bindings_push, same]
  store := similar.store
  now := similar.now
  logs := similar.logs
  requests := similar.requests

theorem Machine.Similar.leaving {left right : Machine} (similar : left.Similar right)
    {depth : Nat} (positive : 0 < depth) : (left.leaving depth).Similar (right.leaving depth) where
  bindings := ScopeStack.truncate_congr similar.bindings positive
  store := similar.store
  now := similar.now
  logs := similar.logs
  requests := similar.requests

theorem Machine.leaving_leaving {machine : Machine} {outer inner : Nat} (positive : 0 < outer)
    (le : outer ≤ inner) (below : inner ≤ machine.scopes.depth) :
    (machine.leaving inner).leaving outer = machine.leaving outer := by
  simp only [leaving, ScopeStack.truncate_truncate positive le below]

/-- An interruption inside of a scope is the same interruption outside, whether the
scope was dropped at once or is still to be dropped. -/
theorem similar_interrupted {before inside outside : Machine} {kind : ScopeKind}
    (above : (before.scopes.push kind).Above inside.scopes)
    (similar : (inside.leaving (before.entering kind).scopes.depth).Similar outside)
    (dropped : Bool) :
    ((if dropped then inside.leaving before.scopes.depth else inside).leaving
      before.scopes.depth).Similar (outside.leaving before.scopes.depth) := by
  have deeper := above.depth_le
  have entered : (before.entering kind).scopes.depth = before.scopes.depth + 1 :=
    ScopeStack.depth_push _ kind
  rw [ScopeStack.depth_push] at deeper
  rw [entered] at similar
  have left : (inside.leaving before.scopes.depth).Similar
      (outside.leaving before.scopes.depth) := by
    rw [← Machine.leaving_leaving before.scopes.depth_pos (Nat.le_succ _) deeper]
    exact similar.leaving before.scopes.depth_pos
  cases dropped with
  | true =>
      rw [if_pos rfl, Machine.leaving_leaving before.scopes.depth_pos (Nat.le_refl _)
        (Nat.le_of_succ_le deeper)]
      exact left
  | false => exact left

theorem Completion.result?_leaving {kind : ScopeKind} (shared : kind ≠ .function)
    (completion : Completion) : (completion.leaving kind).result? = completion.result? := by
  cases kind with
  | function => exact absurd rfl shared
  | loop => cases completion <;> rfl
  | block => cases completion <;> rfl

/-- A popped scope hands its signal to the scope around it, which had none. -/
theorem flows_pop {before inside : Machine} {kind : ScopeKind} {completion : Completion}
    (ready : Ready before) (shared : kind ≠ .function)
    (balanced : (before.scopes.push kind).Balanced inside.scopes)
    (flows : Flows completion inside) :
    Flows (completion.leaving kind) { inside with scopes := inside.scopes.pop.2 } := by
  have insideKind : inside.scopes.current.kind = kind := by
    rw [balanced.kind]
    cases kind <;> rfl
  have insideFlow : inside.scopes.current.flow = completion.signal := flows.flow
  constructor
  · change inside.scopes.pop.2.flow = _
    rw [balanced.flow_pop, ready.flows.flow, flows.flow]
    simp only [Scope.stopsSignal, insideFlow, insideKind]
    cases kind with
    | function => exact absurd rfl shared
    | loop => cases completion <;> rfl
    | block => cases completion <;> rfl
  · rw [Completion.result?_leaving shared, ← flows.result]
    exact balanced.returnValue?_pop shared

section

variable {left : Statement → RunM Unit} {right : Statement → RunM Completion}
  {machine other : Machine} (mirrors : MirrorsStatements left right)
  (executes : ExecutesSoundly Workflow.TryFree left)
  (balances : ∀ statement, Balances (left statement))

include mirrors executes balances

theorem simulates_executeAll (ready : Ready machine) (similar : machine.Similar other)
    {statements : List Statement} (tryFree : TryFreeStatements statements) :
    Simulates (fun _ completion final => Flows completion final) (executeAll left statements)
      (Direct.executeAll right statements) machine other := by
  induction statements generalizing machine other with
  | nil => exact .ok ready.flows similar
  | cons statement rest ih =>
      obtain ⟨first, others⟩ := List.forall_mem_cons.mp tryFree
      have admitted : statement.Admitted Workflow.TryFree :=
        fun _ introduces => first.introduces introduces
      refine (mirrors statement first ready similar).bind
        (fun _ _ returns => (balances statement).depth_returns returns) ?_
      intro _ completion final otherFinal returns flows finals
      obtain ⟨sound, -⟩ := (executes statement admitted ready.sound).returned returns
      change Simulates _ (if final.scopes.flow = .proceed then executeAll left rest else pure ())
        _ final otherFinal
      rw [flows.flow]
      cases completion with
      | normal => exact ih ⟨sound, flows⟩ finals others
      | breaking => exact .ok flows finals
      | returning value => exact .ok flows finals

theorem simulates_runBlock (ready : Ready machine) (similar : machine.Similar other)
    {kind : ScopeKind} (shared : kind ≠ .function) {block : Block}
    (tryFree : TryFreeStatements block.statements) :
    Simulates (fun signal completion final =>
        signal = completion.signal ∧ Flows (completion.leaving kind) final)
      (runBlock left kind block) (Direct.inScope (Direct.executeAll right block.statements))
      machine other := by
  have enteredReady : Ready (machine.entering kind) := by
    refine ⟨ready.sound.narrow (ScopeStack.narrows_push _ kind), ?_⟩
    cases kind with
    | function => exact absurd rfl shared
    | loop | block => exact ⟨rfl, ready.flows.result⟩
  have body := simulates_executeAll mirrors executes balances enteredReady
    (similar.entering kind .block) tryFree
  have framed := balances_executeAll balances block.statements (machine.entering kind)
  have depths : other.scopes.depth = machine.scopes.depth :=
    (ScopeStack.depth_congr similar.bindings).symm
  unfold Simulates at body ⊢
  rw [run_runBlock, Direct.run_inScope, depths]
  unfold After at framed
  cases leftRan : (executeAll left block.statements).run.run (machine.entering kind) with
  | mk leftOutcome inside =>
      cases rightRan : (Direct.executeAll right block.statements).run.run
          (other.entering .block) with
      | mk rightOutcome outside =>
          rw [leftRan] at framed
          rw [leftRan, rightRan] at body
          cases body with
          | @ok _ completion _ _ flows finals =>
              have balanced := framed.2 rfl
              have deeper : inside.scopes.depth = machine.scopes.depth + 1 :=
                balanced.depth.trans (ScopeStack.depth_push _ kind)
              refine .ok ⟨(ScopeStack.pop_signal _).trans flows.flow,
                flows_pop ready shared balanced flows⟩ ?_
              have left := finals.leaving machine.scopes.depth_pos
              refine ⟨?_, left.store, left.now, left.logs, left.requests⟩
              exact (ScopeStack.bindings_pop machine.scopes.depth_pos deeper).trans left.bindings
          | error finals => exact .error (similar_interrupted framed.1 finals _)

theorem simulates_callBody (sound : machine.Sound Workflow.TryFree)
    (similar : machine.Similar other) {definition : Workflow} (tryFree : definition.TryFree)
    {arguments : CallArguments} (within : arguments.Within Workflow.TryFree machine.size)
    (location : Span) :
    Simulates (fun leftValue rightValue _ => rightValue = leftValue)
      (callBody left definition arguments location) (do
        bindParameters definition arguments location
        let completion ← Direct.executeAll right definition.body.statements
        checkResult definition completion.result? location)
      (machine.entering .function) (other.entering .block) := by
  -- A function scope starts without a signal and with an empty slot of its own.
  have entered : Ready (machine.entering .function) := by
    refine ⟨sound.narrow (ScopeStack.narrows_push _ .function), rfl, ?_⟩
    simp [Machine.entering, ScopeStack.push, ScopeStack.returnValue?, Scope.fresh,
      Completion.result?]
  refine (Respects.composes.bindParameters .declare definition arguments location _ _
    (similar.entering .function .block)).bindTo ?_
  intro _ bound otherBound returns calm bounds
  obtain ⟨boundSound, -⟩ :=
    (bindParameters_preserves entered.sound definition within location).returned returns
  have ready := entered.calm calm boundSound
  refine (simulates_executeAll mirrors executes balances ready bounds tryFree).bind
    (fun _ _ ran => (balances_executeAll balances _).depth_returns ran) ?_
  intro _ completion final otherFinal _ flows finals
  change Simulates _ (checkResult definition final.scopes.returnValue? location) _ final otherFinal
  rw [flows.result]
  refine (Respects.composes.checkResult definition completion.result? location final otherFinal
    finals).imp ?_
  intro _ _ _ _ same
  exact same.1

theorem mirrors_runCall (sound : machine.Sound Workflow.TryFree)
    (similar : machine.Similar other) {definition : Workflow} (tryFree : definition.TryFree)
    {arguments : CallArguments} (within : arguments.Within Workflow.TryFree machine.size)
    (location : Span) :
    Mirrors (runCall left definition arguments location) (Direct.inScope do
        bindParameters definition arguments location
        let completion ← Direct.executeAll right definition.body.statements
        checkResult definition completion.result? location) machine other := by
  have body := simulates_callBody mirrors executes balances sound similar tryFree within location
  have framed := balances_callBody balances definition arguments location
    (machine.entering .function)
  have depths : other.scopes.depth = machine.scopes.depth :=
    (ScopeStack.depth_congr similar.bindings).symm
  unfold Simulates at body
  unfold Mirrors Simulates
  rw [run_runCall, Direct.run_inScope, depths]
  unfold After at framed
  generalize (callBody left definition arguments location).run.run
    (machine.entering .function) = leftRan at body framed ⊢
  generalize (do
    bindParameters definition arguments location
    let completion ← Direct.executeAll right definition.body.statements
    checkResult definition completion.result? location : RunM Value).run.run
      (other.entering .block) = rightRan at body ⊢
  cases body with
  | @ok value _ inside outside same finals =>
      cases same
      exact .ok ⟨rfl, (framed.2 rfl).calm⟩ (finals.leaving machine.scopes.depth_pos)
  | @error interruption inside outside finals =>
      have above : (machine.scopes.push .function).Above inside.scopes := framed.1
      exact .error (similar_interrupted above finals _)

theorem mirrors_invoke (sound : machine.Sound Workflow.TryFree)
    (similar : machine.Similar other) {definition : Workflow} (tryFree : definition.TryFree)
    {arguments : CallArguments} (within : arguments.Within Workflow.TryFree machine.size)
    (location : Span) :
    Mirrors (invoke left definition arguments location)
      (Direct.invoke right definition arguments location) machine other := by
  rw [invoke_eq]
  refine (Respects.report _ _ _ machine other similar).bind ?_
  intro _ reported otherReported returns _ reports
  obtain ⟨reportedSound, -, store⟩ :=
    (Preserves.report sound (.refl machine)).returned returns
  have size : reported.size = machine.size := congrArg Store.size store
  exact mirrors_runCall mirrors executes balances reportedSound reports tryFree (size ▸ within)
    location

omit mirrors executes in
theorem invoke_abandoned_calm (machine : Machine) (definition : Workflow)
    (arguments : CallArguments) (location : Span) :
    After (invoke left definition arguments location).run machine fun outcome final =>
      ∀ interruption, outcome = .error interruption → interruption.isFailure = false →
        machine.scopes.Calm (final.scopes.truncate machine.scopes.depth) := by
  have framed : ∀ reported : Machine, After (runCall left definition arguments location).run
      reported fun outcome final =>
        ∀ interruption, outcome = .error interruption → interruption.isFailure = false →
          reported.scopes.Calm (final.scopes.truncate reported.scopes.depth) := by
    intro reported
    have body := balances_callBody balances definition arguments location
      (reported.entering .function)
    unfold After at body ⊢
    rw [run_runCall]
    cases ran : (callBody left definition arguments location).run.run
        (reported.entering .function) with
    | mk outcome inside =>
        rw [ran] at body
        intro interruption error abandoned
        cases outcome with
        | ok => cases error
        | error actual =>
            cases error
            simp only [abandoned, Bool.false_eq_true, if_false]
            exact body.1.calm
  rw [invoke_eq, after_run_bind]
  exact framed _

end

/-! ## Awaiting -/

theorem Direct.run_awaitInvocation (execute : Context → Statement → RunM Completion)
    (context : Context) (definition : Workflow) (arguments : CallArguments) (called : Span)
    (timeout : Duration) (location : Span) (machine : Machine) :
    (Direct.awaitInvocation execute context definition arguments called timeout
        location).run.run machine =
      match (Direct.invoke (execute (context.awaiting machine.now timeout)) definition arguments
          called).run.run machine with
      | (.ok value, final) => (.ok value, final)
      | (.error interruption, final) =>
          if interruption = .expired context.deadlines.length then
            (answerTimeout definition location).run.run final
          else (.error interruption, final) := by
  unfold Direct.awaitInvocation
  rw [run_bind_eq, run_withTimeout]
  cases (Direct.invoke (execute (context.awaiting machine.now timeout)) definition arguments
      called).run.run machine with
  | mk outcome final =>
      cases outcome with
      | ok value => rfl
      | error interruption =>
          by_cases expired : interruption = .expired context.deadlines.length
          · simp only [if_pos expired]
            rfl
          · simp only [if_neg expired]

section

variable {left : Context → Statement → RunM Unit} {right : Context → Statement → RunM Completion}
  {machine other : Machine} (mirrors : ∀ context, MirrorsStatements (left context) (right context))
  (executes : ∀ context, ExecutesSoundly Workflow.TryFree (left context))
  (balances : ∀ context statement, Balances (left context statement))

include mirrors executes balances

theorem mirrors_awaitInvocation (sound : machine.Sound Workflow.TryFree)
    (similar : machine.Similar other) (context : Context) {definition : Workflow}
    (tryFree : definition.TryFree) {arguments : CallArguments}
    (within : arguments.Within Workflow.TryFree machine.size) (called : Span)
    (timeout : Duration) (location : Span) :
    Mirrors (awaitInvocation left context definition arguments called timeout location)
      (Direct.awaitInvocation right context definition arguments called timeout location)
      machine other := by
  have call := mirrors_invoke (mirrors (context.awaiting machine.now timeout)) (executes _)
    (balances _) sound similar tryFree within called
  have abandoned := invoke_abandoned_calm (balances (context.awaiting machine.now timeout))
    machine definition arguments called
  unfold Mirrors Simulates at call ⊢
  rw [run_awaitInvocation, Direct.run_awaitInvocation, ← similar.now]
  unfold After at abandoned
  generalize (invoke (left (context.awaiting machine.now timeout)) definition arguments
    called).run.run machine = leftRan at call abandoned ⊢
  generalize (Direct.invoke (right (context.awaiting machine.now timeout)) definition arguments
    called).run.run other = rightRan at call ⊢
  cases call with
  | ok holds finals => exact .ok holds finals
  | @error interruption inside outside finals =>
      dsimp only
      split
      · next expired =>
          have calm := abandoned interruption rfl (by rw [expired]; rfl)
          have answers : Respects (answerTimeout definition location) :=
            .bind (.report _ _ _) fun _ => .onStore _
          have answered := (answers _ _ finals).imp fun _ _ _ _ holds =>
            And.intro holds.1 (ScopeStack.Calm.trans calm holds.2)
          unfold Simulates at answered
          have depth : (inside.leaving machine.scopes.depth).scopes.depth =
            machine.scopes.depth := calm.depth
          rw [depth] at answered
          exact answered
      · exact .error finals

theorem mirrors_awaitValue (sound : machine.Sound Workflow.TryFree)
    (similar : machine.Similar other) (context : Context) {awaited : Value}
    (within : awaited.Within Workflow.TryFree machine.size) (operand : Expr)
    (timeout : Duration) (location : Span) :
    Mirrors (awaitValue left context awaited operand timeout location)
      (Direct.awaitValue right context awaited operand timeout location) machine other := by
  cases within with
  | invocation known argumentsWithin =>
      exact mirrors_awaitInvocation mirrors executes balances sound similar context known
        argumentsWithin _ timeout location
  | workflow known =>
      exact mirrors_awaitInvocation mirrors executes balances sound similar context known
        (fun _ member => by cases member) _ timeout location
  | @stored kind address =>
      cases kind with
      | host kind =>
          unfold awaitValue Direct.awaitValue
          dsimp only
          split
          · exact respects_awaitHost context kind _ timeout location machine other similar
          · exact Respects.throw _ machine other similar
      | _ => exact Respects.throw _ machine other similar
  | _ => exact Respects.throw _ machine other similar

end

/-! ## Branches and loops -/

theorem simulates_branches {leftCondition rightCondition : Expr → RunM Bool}
    {leftRun : Block → RunM Unit} {rightRun : Block → RunM Completion}
    {machine other : Machine}
    (conditions : ∀ (expr : Expr) {machine other : Machine}, expr.TryFree →
      machine.Sound Workflow.TryFree → machine.Similar other →
      Mirrors (leftCondition expr) (rightCondition expr) machine other)
    (conditionSound : ∀ (expr : Expr) {machine : Machine}, machine.Sound Workflow.TryFree →
      Preserves Workflow.TryFree machine (leftCondition expr) machine fun _ _ => True)
    (runs : ∀ (block : Block) {machine other : Machine}, TryFreeStatements block.statements →
      Ready machine → machine.Similar other →
      Simulates (fun _ completion final => Flows completion final) (leftRun block)
        (rightRun block) machine other)
    {otherwise : Option Block}
    (lastFree : ∀ block, otherwise = some block → TryFreeStatements block.statements)
    {branches : List Conditional} (conditionsFree : ∀ branch ∈ branches, branch.condition.TryFree)
    (bodiesFree : ∀ branch ∈ branches, TryFreeStatements branch.body.statements)
    (ready : Ready machine) (similar : machine.Similar other) :
    Simulates (fun _ completion final => Flows completion final) (do
        let chosen ← runFirstBranch leftCondition leftRun branches
        match chosen, otherwise with
        | false, some block => leftRun block
        | _, _ => pure ())
      (Direct.chooseBranch rightCondition rightRun otherwise branches) machine other := by
  induction branches generalizing machine other with
  | nil =>
      simp only [runFirstBranch, Direct.chooseBranch, pure_bind]
      cases otherwise with
      | none => exact .ok ready.flows similar
      | some block => exact runs block (lastFree block rfl) ready similar
  | cons branch rest ih =>
      obtain ⟨conditionFree, otherConditions⟩ := List.forall_mem_cons.mp conditionsFree
      obtain ⟨bodyFree, otherBodies⟩ := List.forall_mem_cons.mp bodiesFree
      simp only [runFirstBranch, Direct.chooseBranch, bind_assoc]
      refine (conditions branch.condition conditionFree ready.sound similar).bindTo ?_
      intro holds final otherFinal returns calm finals
      obtain ⟨sound, -⟩ := (conditionSound branch.condition ready.sound).returned returns
      have finalReady := ready.calm calm sound
      cases holds with
      | true =>
          have chosen := runs branch.body bodyFree finalReady finals
          rw [← bind_pure_unit (x := leftRun branch.body)] at chosen
          simpa only [if_true, bind_assoc, pure_bind] using chosen
      | false => exact ih otherConditions otherBodies finalReady finals

theorem simulates_loop {leftBody : RunM FlowSignal} {rightBody : RunM Completion}
    {exceeded : RunM Unit} {machine other : Machine}
    (bodies : ∀ {machine other : Machine}, Ready machine → machine.Similar other →
      Simulates (fun signal completion final =>
        signal = completion.signal ∧ Flows (completion.leaving .loop) final)
        leftBody rightBody machine other)
    (bodySound : ∀ {machine : Machine}, machine.Sound Workflow.TryFree →
      Preserves Workflow.TryFree machine leftBody machine fun _ _ => True)
    (balances : Balances leftBody) (respects : Respects exceeded) (rounds : Nat)
    (ready : Ready machine) (similar : machine.Similar other) :
    Simulates (fun _ completion final => Flows completion final) (do
        let signalled ← repeatUntilSignal leftBody rounds
        if signalled then pure () else exceeded)
      (Direct.repeatBody rightBody exceeded rounds) machine other := by
  induction rounds generalizing machine other with
  | zero =>
      simp only [repeatUntilSignal, Direct.repeatBody, pure_bind, Bool.false_eq_true, if_false]
      exact (respects machine other similar).completes ready
  | succ rounds ih =>
      simp only [repeatUntilSignal, Direct.repeatBody, bind_assoc]
      refine (bodies ready similar).bind (fun _ _ ran => balances.depth_returns ran) ?_
      intro signal completion final otherFinal returns holds finals
      obtain ⟨rfl, flows⟩ := holds
      obtain ⟨sound, -⟩ := (bodySound ready.sound).returned returns
      cases completion with
      | normal => exact ih ⟨sound, flows⟩ finals
      | breaking => exact .ok flows finals
      | returning value => exact .ok flows finals

/-! ## Expressions and statements -/

section

variable {depth : Nat}
  (expressions : ∀ context,
    MirrorsExpressions (evaluate depth context) (Direct.evaluate depth context))
  (statements : ∀ context,
    MirrorsStatements (execute depth context) (Direct.execute depth context))

include expressions

/-- What follows an expression starts ready when the expression did. -/
theorem simulates_value (context : Context) {expr : Expr} (exprFree : expr.TryFree)
    {machine other : Machine} (ready : Ready machine) (similar : machine.Similar other)
    {next : Value → RunM Unit} {direct : Value → RunM Completion}
    (rest : ∀ (value : Value) {final otherFinal : Machine}, Ready final →
      final.Similar otherFinal → Simulates (fun _ completion final => Flows completion final)
        (next value) (direct value) final otherFinal) :
    Simulates (fun _ completion final => Flows completion final)
      (evaluate depth context expr >>= next) (Direct.evaluate depth context expr >>= direct)
      machine other := by
  obtain ⟨soundly, -⟩ := evaluation_preserves closed_tryFree depth
  refine (expressions context expr exprFree ready.sound similar).bindTo ?_
  intro value final otherFinal returns calm finals
  obtain ⟨sound, -⟩ := (soundly context expr ready.sound).returned returns
  exact rest value (ready.calm calm sound) finals

include statements

theorem mirrors_evaluate_step (context : Context) :
    MirrorsExpressions (evaluate (depth + 1) context) (Direct.evaluate (depth + 1) context) := by
  obtain ⟨soundly, executes⟩ := evaluation_preserves closed_tryFree depth
  have balances := fun context => (evaluation_balances depth context).2
  have parts := expressions context
  have evaluates := soundly context
  intro expr machine other tryFree sound similar
  unfold evaluate Direct.evaluate
  cases tryFree with
  | literal => exact Respects.onStore _ machine other similar
  | path => exact Respects.composes.resolve _ _ machine other similar
  | call argumentsFree =>
      refine (Respects.composes.resolve _ _ machine other similar).bind ?_
      intro function middle otherMiddle returns _ middles
      obtain ⟨middleSound, -⟩ := (resolve_preserves sound _ _).returned returns
      refine (mirrors_evaluateArguments parts evaluates middleSound middles _ argumentsFree).bind ?_
      intro values final otherFinal _ _ finals
      exact Respects.composes.callValue function _ values _ final otherFinal finals
  | array elementsFree =>
      refine (mirrors_evaluateElements parts evaluates sound similar elementsFree).bind ?_
      intro items final otherFinal _ _ finals
      exact Respects.onStore _ final otherFinal finals
  | dictionary entriesFree =>
      refine (mirrors_evaluateEntries parts evaluates sound similar _ entriesFree).bind ?_
      intro entries final otherFinal _ _ finals
      exact Respects.onStore _ final otherFinal finals
  | unary operandFree =>
      refine (parts _ operandFree sound similar).bind ?_
      intro value final otherFinal _ _ finals
      exact Respects.onStoreAt _ _ final otherFinal finals
  | chain firstFree operationsFree =>
      refine (parts _ firstFree sound similar).bind ?_
      intro value final otherFinal returns _ finals
      obtain ⟨finalSound, -⟩ := (evaluates _ sound).returned returns
      exact mirrors_applyOperations parts evaluates finalSound finals context.program value
        operationsFree
  | @await operand duration span operandFree durationFree =>
      refine (parts _ operandFree sound similar).bind ?_
      intro awaited middle otherMiddle returns _ middles
      obtain ⟨middleSound, within⟩ := (evaluates _ sound).returned returns
      refine (parts _ durationFree middleSound middles).bind ?_
      intro limit ready otherReady returnsLimit _ readies
      have limited := evaluates duration middleSound
      obtain ⟨readySound, -⟩ := limited.returned returnsLimit
      have grown := limited.keeps returnsLimit
      refine (Respects.composes.expectDuration limit _ ready otherReady readies).bind ?_
      intro timeout final otherFinal returnsTime _ finals
      have timed := expectDuration_preserves readySound limit duration.span
      obtain ⟨finalSound, -⟩ := timed.returned returnsTime
      have grownAgain := timed.keeps returnsTime
      exact mirrors_awaitValue statements executes balances finalSound finals context
        ((within.mono grown.size_le).mono grownAgain.size_le) _ timeout _

theorem simulates_execute_step (context : Context) :
    MirrorsStatements (execute (depth + 1) context) (Direct.execute (depth + 1) context) := by
  obtain ⟨soundly, executesSoundly⟩ := evaluation_preserves closed_tryFree depth
  have balances := (evaluation_balances depth context).2
  have executes := executesSoundly context
  have starts := @simulates_value depth expressions context
  intro statement machine other tryFree startReady startSimilar
  unfold execute Direct.execute
  refine (Respects.report _ _ _ machine other startSimilar).bindTo ?_
  intro _ start otherStart reported startCalm similar
  obtain ⟨startSound, -⟩ :=
    (Preserves.report startReady.sound (.refl machine)).returned reported
  have ready := startReady.calm startCalm startSound
  cases tryFree with
  | importing => exact (Respects.report _ _ _ start otherStart similar).completes ready
  | @declaration name typeName value span valueFree =>
      have declares : ∀ kind initializer, Respects (do
          let now ← currentInstant context
          let value ← onStoreAt span (Value.construct now kind initializer)
          onScopesAt name.span (·.declare name.name value)) := fun _ _ =>
        .bind (Respects.composes.currentInstant context) fun _ =>
          .bind (.onStoreAt _ _) fun _ => .declare _ _ _
      refine (Respects.composes.resolveKind typeName start otherStart similar).bindTo ?_
      intro kind resolved otherResolved returns calm resolveds
      obtain ⟨-, rfl⟩ := (resolveKind_preserves ready.sound typeName).returned returns
      cases value with
      | some value =>
          refine starts (valueFree value rfl) ready resolveds ?_
          intro initializer final otherFinal finalReady finals
          have completed := (declares kind initializer final otherFinal finals).completes finalReady
          simpa only [bind_assoc] using completed
      | none =>
          have completed := (declares kind .void _ otherResolved resolveds).completes ready
          simpa only [bind_assoc, pure_bind] using completed
  | assignment valueFree =>
      refine starts valueFree ready similar fun source final otherFinal finalReady finals => ?_
      exact (respects_assignTarget _ source _ final otherFinal finals).completes finalReady
  | @delay duration span durationFree =>
      refine starts durationFree ready similar fun value final otherFinal finalReady finals => ?_
      have waits : Respects (do
          let time ← expectDuration value duration.span
          report .debug "delay" [("duration", .text time.render)]
          wait context.deadlines time.millis) :=
        .bind (Respects.composes.expectDuration value _) fun time =>
          .bind (.report _ _ _) fun _ => .wait _ _
      have completed := (waits final otherFinal finals).completes finalReady
      simpa only [bind_assoc] using completed
  | returning valueFree =>
      exact starts valueFree ready similar fun result _ _ finalReady finals =>
        simulates_setReturn finalReady finals result
  | @raising value span valueFree =>
      exact starts valueFree ready similar fun raised _ _ finalReady finals =>
        simulates_raising finalReady finals context value span raised
  | breaking =>
      exact .ok ⟨rfl, ready.flows.result⟩
        ⟨similar.bindings, similar.store, similar.now, similar.logs, similar.requests⟩
  | expression valueFree =>
      exact starts valueFree ready similar fun _ _ _ finalReady finals =>
        .ok finalReady.flows finals
  | branch conditionsFree bodiesFree lastFree =>
      refine simulates_branches ?_ ?_ ?_ lastFree conditionsFree bodiesFree ready similar
      · intro expr machine other conditionFree sound machines
        refine (expressions context expr conditionFree sound machines).bind ?_
        intro value final otherFinal _ _ finals
        exact Respects.onStoreAt _ _ final otherFinal finals
      · intro expr machine sound
        exact testCondition_preserves (soundly context) sound expr
      · intro block machine other blockFree blockReady machines
        refine (simulates_runBlock (statements context) executes balances blockReady machines
          (by decide) blockFree).discard ?_
        intro signal completion final holds
        cases completion <;> exact holds.2
  | loop bodyFree =>
      refine simulates_loop ?_ ?_ (balances_runBlock balances .loop _) (.report _ _ _) _ ready
        similar
      · intro machine other bodyReady machines
        exact simulates_runBlock (statements context) executes balances bodyReady machines
          (by decide) bodyFree
      · intro machine sound
        exact runBlock_preserves executes sound .loop (TryFreeStatements.admitted bodyFree)
  | workflow bodyFree => exact (Respects.declare _ _ _ start otherStart similar).completes ready

end

theorem evaluation_mirrors (depth : Nat) :
    (∀ context, MirrorsExpressions (evaluate depth context) (Direct.evaluate depth context)) ∧
      ∀ context, MirrorsStatements (execute depth context) (Direct.execute depth context) := by
  induction depth with
  | zero =>
      exact ⟨fun _ _ _ _ _ _ similar => .throw similar .exhausted,
        fun _ _ _ _ _ _ similar => .throw similar .exhausted⟩
  | succ depth ih =>
      obtain ⟨expressions, statements⟩ := ih
      exact ⟨mirrors_evaluate_step expressions statements,
        simulates_execute_step expressions statements⟩

/-- A program without `try` ends in the same way under both semantics: with the same
outcome, variables, store, time, reports and requests. What an exhausted run leaves
above the outermost scope does not count. -/
theorem signals_refine_direct_flow (options : RunOptions) (depth : Nat) (program : Program)
    (instanceId : Int64) (tryFree : TryFreeStatements program.script.statements) :
    (runProgram options depth program instanceId).1 =
        (Direct.runProgram options depth program instanceId).1 ∧
      ((runProgram options depth program instanceId).2.leaving 1).Similar
        (Direct.runProgram options depth program instanceId).2 := by
  obtain ⟨-, executes⟩ := evaluation_preserves closed_tryFree depth
  have balances := fun context => (evaluation_balances depth context).2
  have initialReady : Ready (initialMachine instanceId) := ⟨initialMachine_sound _, rfl, rfl⟩
  have initialSimilar : (initialMachine instanceId).Similar (initialMachine instanceId) :=
    ⟨rfl, rfl, rfl, rfl, rfl⟩
  have runs := simulates_executeAll ((evaluation_mirrors depth).2 (options.context program))
    (executes _) (balances _) initialReady initialSimilar tryFree
  have depths : ∀ value final, (executeAll (execute depth (options.context program))
      program.script.statements).Returns (initialMachine instanceId) value final →
      final.scopes.depth = 1 :=
    fun _ _ returns => (balances_executeAll (balances _) _).depth_returns returns
  have simulated : Simulates (fun leftValue rightValue (final : Machine) =>
      rightValue = leftValue ∧ final.scopes.depth = 1) (do
        executeAll (execute depth (options.context program)) program.script.statements
        let scopes ← getScopes
        pure scopes.returnValue?) (do
        let completion ← Direct.executeAll (Direct.execute depth (options.context program))
          program.script.statements
        pure completion.result?) (initialMachine instanceId) (initialMachine instanceId) := by
    refine runs.bind depths ?_
    intro _ completion final otherFinal returns flows finals
    exact .ok ⟨flows.result.symm, depths _ _ returns⟩ finals
  have results : Simulated 1 (fun leftValue rightValue (final : Machine) =>
      rightValue = leftValue ∧ final.scopes.depth = 1)
      (runProgram options depth program instanceId)
      (Direct.runProgram options depth program instanceId) := simulated
  generalize runProgram options depth program instanceId = left at results ⊢
  generalize Direct.runProgram options depth program instanceId = right at results ⊢
  cases results with
  | ok holds finals =>
      obtain ⟨rfl, alone⟩ := holds
      rw [Machine.leaving_of_depth_le (Nat.le_of_eq alone)]
      exact ⟨rfl, finals⟩
  | error finals => exact ⟨rfl, finals⟩

/-- Returns from a branch of a loop, with a statement behind the loop. -/
def returningLoop : Program :=
  let seven : Expr := .literal (.integer 7) .origin
  let branch : Conditional :=
    ⟨.literal (.boolean true) .origin, ⟨[.returning seven .origin], .origin⟩, .origin⟩
  ⟨"", [], ⟨[.loop ⟨[.branch branch [] none .origin, .breaking .origin], .origin⟩ .origin,
    .delay seven .origin], .origin⟩⟩

theorem returningLoop_refines_direct_flow :
    settled (runProgram ⟨Host.none, 10, ⟨0, 0⟩⟩ 10 returningLoop 0).1 ∧
      (runProgram ⟨Host.none, 10, ⟨0, 0⟩⟩ 10 returningLoop 0).1 =
        (Direct.runProgram ⟨Host.none, 10, ⟨0, 0⟩⟩ 10 returningLoop 0).1 ∧
      ((runProgram ⟨Host.none, 10, ⟨0, 0⟩⟩ 10 returningLoop 0).2.leaving 1).Similar
        (Direct.runProgram ⟨Host.none, 10, ⟨0, 0⟩⟩ 10 returningLoop 0).2 := by
  refine ⟨by decide +kernel, signals_refine_direct_flow _ 10 returningLoop 0 ?_⟩
  refine List.forall_mem_cons.mpr ⟨.loop ?_, List.forall_mem_singleton.mpr (.delay .literal)⟩
  refine List.forall_mem_cons.mpr ⟨.branch ?_ ?_ ?_, List.forall_mem_singleton.mpr .breaking⟩
  · exact List.forall_mem_singleton.mpr .literal
  · exact List.forall_mem_singleton.mpr (List.forall_mem_singleton.mpr (.returning .literal))
  · intro block impossible
    cases impossible

end FlowScript
