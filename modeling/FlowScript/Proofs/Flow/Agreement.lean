import FlowScript.Proofs.Flow.Simulation
import FlowScript.Proofs.Scope.Evaluation
import FlowScript.Proofs.Storage.Evaluation
import FlowScript.Proofs.Syntax.TryFree

/-!
# Agreement on similar machines

Computations that look at variables, the store and the clock only do the same on
similar machines. Two evaluations that agree on expressions without `try` agree on
lists of them.
-/

set_option autoImplicit false

namespace FlowScript

open RunM

/-! ## Computations on similar machines -/

theorem Respects.lookup (name : Identifier) : Respects (resolve name []) := by
  intro machine other similar
  unfold Mirrors Simulates
  rw [run_resolve, run_resolve, ← ScopeStack.lookup?_congr similar.bindings]
  cases machine.scopes.lookup? name.name with
  | some value => exact Respects.pure value machine other similar
  | none => exact Respects.throw _ machine other similar

theorem Respects.currentInstant (context : Context) :
    Respects (FlowScript.currentInstant context) := by
  intro machine other similar
  refine .ok ⟨?_, .refl _⟩ similar
  rw [similar.now]

theorem Respects.composes : Composes fun {_} action _ => Respects action where
  pure := .pure
  fail _ _ := .throw _
  getStore := .getStore
  lookup := .lookup
  currentInstant := .currentInstant
  report := .report
  onStore _ := .onStore _
  bind first next := .bind first next

theorem respects_assignTarget (target : Path) (source : Value) (span : Span) :
    Respects (assignTarget target source span) := by
  have composes := Respects.composes
  unfold assignTarget
  split
  · exact .bind (composes.resolve _ _) fun _ => .bind (.onStoreAt _ _) fun _ => .rebind _ _ _
  · exact .bind (composes.resolve _ _) fun parent => composes.assignEntry parent _ _ _

/-- Only the time matters for a deadline, and work that leaves the scopes alone can
be given up anywhere. -/
theorem respects_withTimeout {α : Type} {context : Context} {timeout : Duration}
    {action : Context → RunM α} (quiet : ∀ inner, Quiet (action inner))
    (respects : ∀ inner, Respects (action inner)) :
    Respects (withTimeout context timeout action) := by
  intro machine other similar
  have inner := respects (context.awaiting machine.now timeout) machine other similar
  have same := quiet (context.awaiting machine.now timeout) machine
  unfold Mirrors Simulates at inner ⊢
  rw [run_withTimeout, run_withTimeout, ← similar.now]
  unfold After at same
  cases left : (action (context.awaiting machine.now timeout)).run.run machine with
  | mk leftOutcome leftFinal =>
      cases right : (action (context.awaiting machine.now timeout)).run.run other with
      | mk rightOutcome rightFinal =>
          rw [left] at same
          rw [left, right] at inner
          cases inner with
          | ok holds finals => exact .ok ⟨congrArg some holds.1, holds.2⟩ finals
          | @error interruption _ _ finals =>
              have depth : leftFinal.scopes.depth ≤ machine.scopes.depth :=
                Nat.le_of_eq (congrArg ScopeStack.depth same)
              rw [Machine.leaving_of_depth_le depth] at finals
              dsimp only
              split
              · refine .ok ⟨rfl, ?_⟩ finals
                rw [same]
                exact .refl _
              · refine .error ?_
                rw [Machine.leaving_of_depth_le depth]
                exact finals

/-- How a service behaves depends on the requests so far, which are the same. -/
theorem respects_askService (service : Service) (delegate : Delegate) (payload : JsonObject)
    (context : Context) : Respects (askService service delegate payload context) := by
  refine .bind (.recordRequest _ _) fun _ => ?_
  intro machine other similar
  change Mirrors
    (do
      let current := context.host.adapted machine.requests delegate
      reportAll (current.announce payload)
      wait context.deadlines current.latency
      pure (current.answer payload))
    (do
      let current := context.host.adapted other.requests delegate
      reportAll (current.announce payload)
      wait context.deadlines current.latency
      pure (current.answer payload)) machine other
  rw [← similar.requests]
  exact Respects.bind (.reportAll _) (fun _ => .bind (.wait _ _) fun _ => .pure _)
    machine other similar

theorem respects_awaitHost (context : Context) (kind : HostKind) (request : Value)
    (timeout : Duration) (location : Span) :
    Respects (awaitHost context kind request timeout location) := by
  unfold awaitHost
  dsimp only
  split
  · exact .throw _
  · next service delegate reply _ =>
      refine .bind .getStore fun store => .bind (.report _ _ _) fun _ => ?_
      refine .bind (respects_withTimeout (quiet_askService service delegate _)
        (respects_askService service delegate _)) fun answer => ?_
      split
      · exact .onStore _
      · exact .bind (.report _ _ _) fun _ => .onStore _
      · exact .bind (.report _ _ _) fun _ => .onStore _

/-! ## Walking through parts of expressions -/

def MirrorsExpressions (left right : Expr → RunM Value) : Prop :=
  ∀ (expr : Expr) {machine other : Machine}, expr.TryFree → machine.Sound Workflow.TryFree →
    machine.Similar other → Mirrors (left expr) (right expr) machine other

section

variable {left right : Expr → RunM Value} {machine other : Machine}
  (mirrors : MirrorsExpressions left right)
  (evaluates : EvaluatesSoundly Workflow.TryFree left)

include mirrors evaluates

theorem mirrors_evaluateArguments (sound : machine.Sound Workflow.TryFree)
    (similar : machine.Similar other) (done : CallArguments) {arguments : List Argument}
    (tryFree : ∀ argument ∈ arguments, argument.value.TryFree) :
    Mirrors (evaluateArguments left done arguments) (evaluateArguments right done arguments)
      machine other := by
  induction arguments generalizing machine other done with
  | nil => exact Respects.pure done machine other similar
  | cons argument rest ih =>
      obtain ⟨first, others⟩ := List.forall_mem_cons.mp tryFree
      refine (mirrors argument.value first sound similar).bind ?_
      intro value final otherFinal returns _ finals
      obtain ⟨finalSound, -⟩ := (evaluates argument.value sound).returned returns
      exact ih finalSound finals _ others

omit evaluates in
theorem mirrors_evaluateCopy (sound : machine.Sound Workflow.TryFree)
    (similar : machine.Similar other) {expr : Expr} (tryFree : expr.TryFree) :
    Mirrors (evaluateCopy left expr) (evaluateCopy right expr) machine other := by
  refine (mirrors expr tryFree sound similar).bind ?_
  intro value final otherFinal _ _ finals
  exact Respects.onStore _ final otherFinal finals

theorem mirrors_evaluateElements (sound : machine.Sound Workflow.TryFree)
    (similar : machine.Similar other) {elements : List Expr}
    (tryFree : ∀ element ∈ elements, element.TryFree) :
    Mirrors (evaluateElements left elements) (evaluateElements right elements) machine other := by
  induction elements generalizing machine other with
  | nil => exact Respects.pure [] machine other similar
  | cons element rest ih =>
      obtain ⟨first, others⟩ := List.forall_mem_cons.mp tryFree
      rw [evaluateElements_cons, evaluateElements_cons]
      refine (mirrors_evaluateCopy mirrors sound similar first).bind ?_
      intro copy middle otherMiddle returns _ middles
      obtain ⟨middleSound, -⟩ := (evaluateCopy_preserves evaluates sound element).returned returns
      refine (ih middleSound middles others).bind ?_
      intro copies final otherFinal _ _ finals
      exact Respects.pure _ final otherFinal finals

theorem mirrors_evaluateEntries (sound : machine.Sound Workflow.TryFree)
    (similar : machine.Similar other) (done : Dictionary Value) {entries : List Entry}
    (tryFree : ∀ entry ∈ entries, entry.value.TryFree) :
    Mirrors (evaluateEntries left done entries) (evaluateEntries right done entries)
      machine other := by
  induction entries generalizing machine other done with
  | nil => exact Respects.pure done machine other similar
  | cons entry rest ih =>
      obtain ⟨first, others⟩ := List.forall_mem_cons.mp tryFree
      rw [evaluateEntries_cons, evaluateEntries_cons]
      refine (mirrors_evaluateCopy mirrors sound similar first).bind ?_
      intro copy final otherFinal returns _ finals
      obtain ⟨finalSound, -⟩ :=
        (evaluateCopy_preserves evaluates sound entry.value).returned returns
      exact ih finalSound finals _ others

omit evaluates in
theorem mirrors_applyOperation (sound : machine.Sound Workflow.TryFree)
    (similar : machine.Similar other) (program : Program) (value : Value) {operation : Operation}
    (tryFree : operation.operand.TryFree) :
    Mirrors (applyOperation left program value operation)
      (applyOperation right program value operation) machine other := by
  have operates : ∀ action : Value → RunM Value, (∀ operand, Respects (action operand)) →
      Mirrors (left operation.operand >>= action) (right operation.operand >>= action)
        machine other := by
    intro action respects
    refine (mirrors operation.operand tryFree sound similar).bind ?_
    intro operand final otherFinal _ _ finals
    exact respects operand final otherFinal finals
  unfold applyOperation
  split
  · have tests : Respects (typeTest program value operation.operand) := by
      unfold typeTest
      dsimp only
      split
      · exact .onStore _
      · exact .throw _
    exact tests machine other similar
  · exact operates _ fun _ => .onStoreAt _ _
  · exact operates _ fun _ => .onStoreAt _ _

theorem mirrors_applyOperations (sound : machine.Sound Workflow.TryFree)
    (similar : machine.Similar other) (program : Program) (value : Value)
    {operations : List Operation}
    (tryFree : ∀ operation ∈ operations, operation.operand.TryFree) :
    Mirrors (applyOperations left program value operations)
      (applyOperations right program value operations) machine other := by
  induction operations generalizing machine other value with
  | nil => exact Respects.pure value machine other similar
  | cons operation rest ih =>
      obtain ⟨first, others⟩ := List.forall_mem_cons.mp tryFree
      rw [applyOperations_cons, applyOperations_cons]
      refine (mirrors_applyOperation mirrors sound similar program value first).bind ?_
      intro result final otherFinal returns _ finals
      obtain ⟨finalSound, -⟩ :=
        (applyOperation_preserves evaluates sound program value operation).returned returns
      exact ih finalSound finals result others

end

end FlowScript
