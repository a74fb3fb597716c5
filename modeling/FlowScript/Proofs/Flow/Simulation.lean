import FlowScript.Proofs.Run.Walk
import FlowScript.Proofs.Scope.Balance

/-!
# Simulation between computations

Two machines are similar when they differ in signals, return slots and kinds of
scopes only. A computation on the left simulates one on the right when both end in
the same way on similar machines. An interruption may leave further scopes behind
on the left.
-/

set_option autoImplicit false

namespace FlowScript

open RunM

/-! ## Similar machines -/

def ScopeStack.bindings (stack : ScopeStack) : List (Dictionary Value) :=
  stack.scopes.map (·.bindings)

/-- The same machine, apart from kinds of scopes, signals and return slots. -/
structure Machine.Similar (left right : Machine) : Prop where
  bindings : left.scopes.bindings = right.scopes.bindings
  store : left.store = right.store
  now : left.now = right.now
  logs : left.logs = right.logs
  requests : left.requests = right.requests

namespace ScopeStack

theorem depth_congr {left right : ScopeStack} (same : left.bindings = right.bindings) :
    left.depth = right.depth := by
  have lengths := congrArg List.length same
  simpa only [bindings, List.length_map, length_scopes] using lengths

theorem bindings_push (stack : ScopeStack) (kind : ScopeKind) :
    (stack.push kind).bindings = .empty :: stack.bindings := by
  cases kind <;> rfl

theorem bindings_truncate (stack : ScopeStack) {depth : Nat} (positive : 0 < depth) :
    (stack.truncate depth).bindings = stack.bindings.drop (stack.depth - depth) := by
  simp only [bindings, scopes_truncate stack positive, List.map_drop]

/-- Popping a scope and dropping it differ in signals only. -/
theorem bindings_pop {stack : ScopeStack} {depth : Nat} (positive : 0 < depth)
    (deeper : stack.depth = depth + 1) :
    stack.pop.2.bindings = (stack.truncate depth).bindings := by
  rw [bindings_truncate stack positive, deeper, Nat.add_sub_cancel_left]
  unfold pop
  split
  · next alone =>
      simp only [ScopeStack.depth, alone, List.length_nil] at deeper
      omega
  · next parent rest outer =>
      simp only [bindings, scopes, outer, List.map_cons, List.drop_succ_cons, List.drop_zero]
      split <;> rfl

theorem truncate_congr {left right : ScopeStack} (same : left.bindings = right.bindings)
    {depth : Nat} (positive : 0 < depth) :
    (left.truncate depth).bindings = (right.truncate depth).bindings := by
  rw [bindings_truncate left positive, bindings_truncate right positive, same, depth_congr same]

theorem lookupIn?_eq_findSome? (name : String) (scopes : List Scope) :
    lookupIn? name scopes = (scopes.map (·.bindings)).findSome? (·.get? name) := by
  induction scopes with
  | nil => rfl
  | cons scope rest ih =>
      simp only [lookupIn?, List.map_cons, List.findSome?_cons, ih]
      cases scope.bindings.get? name <;> rfl

theorem lookup?_congr {left right : ScopeStack} (same : left.bindings = right.bindings)
    (name : String) : left.lookup? name = right.lookup? name := by
  simp only [bindings] at same
  simp only [lookup?, lookupIn?_eq_findSome?, same]

theorem declare_congr {left right : ScopeStack} (same : left.bindings = right.bindings)
    (name : String) (value : Value) :
    (left.declare name value).map bindings = (right.declare name value).map bindings := by
  obtain ⟨first, tail⟩ := List.cons.inj same
  have head : left.current.bindings = right.current.bindings := first
  unfold declare
  rw [head]
  split
  · rfl
  · exact congrArg Except.ok (congrArg (right.current.bindings.insert name value :: ·) tail)

theorem rebind_congr {left right : ScopeStack} (same : left.bindings = right.bindings)
    (name : String) (value : Value) :
    (left.rebind name value).map bindings = (right.rebind name value).map bindings := by
  have inLists : ∀ lefts rights : List Scope,
      lefts.map (·.bindings) = rights.map (·.bindings) →
      (rebindIn? name value lefts).map (·.map (·.bindings)) =
        (rebindIn? name value rights).map (·.map (·.bindings)) := by
    intro lefts
    induction lefts with
    | nil =>
        intro rights equal
        cases rights with
        | nil => rfl
        | cons => cases equal
    | cons scope rest ih =>
        intro rights equal
        cases rights with
        | nil => cases equal
        | cons other others =>
            obtain ⟨head, tail⟩ := List.cons.inj equal
            simp only [rebindIn?, head]
            split
            · simp only [Option.map_some, List.map_cons, tail]
            · have rest := congrArg (Option.map (other.bindings :: ·)) (ih others tail)
              simpa only [Option.map_map, Function.comp_def, List.map_cons, head] using rest
  have lists := inLists left.scopes right.scopes same
  unfold rebind
  cases leftRebound : rebindIn? name value left.scopes with
  | none =>
      rw [leftRebound] at lists
      cases rightRebound : rebindIn? name value right.scopes with
      | none => rfl
      | some => rw [rightRebound] at lists; cases lists
  | some leftScopes =>
      rw [leftRebound] at lists
      cases rightRebound : rebindIn? name value right.scopes with
      | none => rw [rightRebound] at lists; cases lists
      | some rightScopes =>
          rw [rightRebound] at lists
          have scopes := Option.some.inj lists
          cases leftScopes with
          | nil =>
              cases rightScopes with
              | nil => rfl
              | cons => cases scopes
          | cons =>
              cases rightScopes with
              | nil => cases scopes
              | cons => exact congrArg Except.ok scopes

end ScopeStack

/-! ## Calm stacks -/

def Scope.frame (scope : Scope) : ScopeKind × Nat × FlowSignal :=
  (scope.kind, scope.slot, scope.flow)

namespace ScopeStack

/-- Signals and old results are what they were. -/
structure Calm (before after : ScopeStack) : Prop where
  frames : after.scopes.map Scope.frame = before.scopes.map Scope.frame
  slots_le : before.slots.size ≤ after.slots.size
  results : ∀ slot < before.slots.size, after.slots[slot]? = before.slots[slot]?

namespace Calm

theorem refl (stack : ScopeStack) : stack.Calm stack := ⟨rfl, Nat.le_refl _, fun _ _ => rfl⟩

theorem trans {first second third : ScopeStack} (left : first.Calm second)
    (right : second.Calm third) : first.Calm third where
  frames := right.frames.trans left.frames
  slots_le := Nat.le_trans left.slots_le right.slots_le
  results slot inBounds := by
    rw [right.results slot (Nat.lt_of_lt_of_le inBounds left.slots_le), left.results slot inBounds]

theorem depth {before after : ScopeStack} (calm : before.Calm after) :
    after.depth = before.depth := by
  have lengths := congrArg List.length calm.frames
  simpa only [List.length_map, length_scopes] using lengths

theorem current {before after : ScopeStack} (calm : before.Calm after) :
    after.current.frame = before.current.frame :=
  (List.cons.inj calm.frames).1

theorem flow {before after : ScopeStack} (calm : before.Calm after) :
    after.flow = before.flow :=
  congrArg (fun frame : ScopeKind × Nat × FlowSignal => frame.2.2) calm.current

theorem slot {before after : ScopeStack} (calm : before.Calm after) :
    after.current.slot = before.current.slot :=
  congrArg (fun frame : ScopeKind × Nat × FlowSignal => frame.2.1) calm.current

theorem returnValue? {before after : ScopeStack} (calm : before.Calm after)
    (slotted : before.Slotted) : after.returnValue? = before.returnValue? := by
  have inBounds := slotted before.current List.mem_cons_self
  simp only [ScopeStack.returnValue?, calm.slot, calm.results _ inBounds]

end Calm

theorem calm_of_outline {before after : ScopeStack}
    (outlines : after.scopes.map Scope.outline = before.scopes.map Scope.outline)
    (slots : after.slots = before.slots) : before.Calm after := by
  have frames := congrArg (List.map fun outline : Scope.Outline =>
    (outline.kind, outline.slot, outline.flow)) outlines
  simp only [List.map_map] at frames
  exact ⟨frames, Nat.le_of_eq (by rw [slots]), fun slot _ => by rw [slots]⟩

theorem Balanced.calm {before after : ScopeStack}
    (balanced : (before.push .function).Balanced after) :
    before.Calm (after.truncate before.depth) := by
  have depth : after.depth = before.depth + 1 := by rw [balanced.depth, depth_push]
  have scopes : (after.truncate before.depth).scopes = after.outer := by
    rw [scopes_truncate _ before.depth_pos, depth, Nat.add_sub_cancel_left]
    rfl
  have frames := congrArg (List.map fun outline : Scope.Outline =>
    (outline.kind, outline.slot, outline.flow)) balanced.outer
  simp only [List.map_map] at frames
  have size : (before.push .function).slots.size = before.slots.size + 1 := Array.size_push _
  refine ⟨by rw [scopes]; exact frames, ?_, fun slot inBounds => ?_⟩
  · have grown := balanced.slots_le
    rw [slots_truncate]
    omega
  · have kept : (before.push .function).slots[slot]? = before.slots[slot]? := by
      simp [push, Array.getElem?_push, Nat.ne_of_lt inBounds]
    rw [slots_truncate, balanced.results slot (by omega) (Nat.ne_of_lt inBounds), kept]

theorem Above.calm {before after : ScopeStack} (above : (before.push .function).Above after) :
    before.Calm (after.truncate before.depth) := by
  have depth := above.depth_le
  rw [depth_push] at depth
  have balanced := above.balanced
  rw [depth_push] at balanced
  rw [← truncate_truncate before.depth_pos (Nat.le_succ _) depth]
  exact balanced.calm

end ScopeStack

/-! ## Simulation -/

/-- Two ways of ending: with related values, or with the same interruption. -/
inductive Simulated {α β : Type} (depth : Nat) (related : α → β → Machine → Prop) :
    Except Interruption α × Machine → Except Interruption β × Machine → Prop where
  | ok {left : α} {right : β} {leftFinal rightFinal : Machine} :
      related left right leftFinal → leftFinal.Similar rightFinal →
      Simulated depth related (.ok left, leftFinal) (.ok right, rightFinal)
  | error {interruption : Interruption} {leftFinal rightFinal : Machine} :
      (leftFinal.leaving depth).Similar rightFinal →
      Simulated depth related (.error interruption, leftFinal) (.error interruption, rightFinal)

/-- The left computation ends as the right one does. -/
def Simulates {α β : Type} (related : α → β → Machine → Prop) (left : RunM α) (right : RunM β)
    (leftMachine rightMachine : Machine) : Prop :=
  Simulated leftMachine.scopes.depth related (left.run.run leftMachine)
    (right.run.run rightMachine)

/-- Both computations yield the same value, and the left one leaves signals and old
results alone. -/
def Mirrors {α : Type} (left right : RunM α) (leftMachine rightMachine : Machine) : Prop :=
  Simulates (fun leftValue rightValue final =>
    rightValue = leftValue ∧ leftMachine.scopes.Calm final.scopes)
    left right leftMachine rightMachine

theorem Machine.leaving_of_depth_le {machine : Machine} {depth : Nat}
    (le : machine.scopes.depth ≤ depth) : machine.leaving depth = machine := by
  simp only [leaving, ScopeStack.truncate_of_depth_le le]

section

variable {α β γ δ : Type} {machine other : Machine}

theorem Simulates.throw {related : α → β → Machine → Prop} (similar : machine.Similar other)
    (interruption : Interruption) :
    Simulates related (MonadExcept.throw interruption) (MonadExcept.throw interruption) machine
      other := by
  refine .error ?_
  rw [Machine.leaving_of_depth_le (Nat.le_refl _)]
  exact similar

theorem Simulates.bind {related : α → β → Machine → Prop} {target : γ → δ → Machine → Prop}
    {leftFirst : RunM α} {rightFirst : RunM β} {leftNext : α → RunM γ} {rightNext : β → RunM δ}
    (first : Simulates related leftFirst rightFirst machine other)
    (depth : ∀ value final, leftFirst.Returns machine value final →
      final.scopes.depth = machine.scopes.depth)
    (next : ∀ left right leftFinal rightFinal, leftFirst.Returns machine left leftFinal →
      related left right leftFinal → leftFinal.Similar rightFinal →
      Simulates target (leftNext left) (rightNext right) leftFinal rightFinal) :
    Simulates target (leftFirst >>= leftNext) (rightFirst >>= rightNext) machine other := by
  unfold Simulates at first ⊢
  rw [run_bind_eq, run_bind_eq]
  cases left : leftFirst.run.run machine with
  | mk leftOutcome leftFinal =>
      cases right : rightFirst.run.run other with
      | mk rightOutcome rightFinal =>
          rw [left, right] at first
          cases first with
          | ok holds similar =>
              have ends := next _ _ leftFinal rightFinal left holds similar
              unfold Simulates at ends
              rw [depth _ _ left] at ends
              exact ends
          | error similar => exact .error similar

theorem Mirrors.bindTo {related : γ → δ → Machine → Prop} {leftFirst rightFirst : RunM α}
    {leftNext : α → RunM γ} {rightNext : α → RunM δ}
    (first : Mirrors leftFirst rightFirst machine other)
    (next : ∀ value leftFinal rightFinal, leftFirst.Returns machine value leftFinal →
      machine.scopes.Calm leftFinal.scopes → leftFinal.Similar rightFinal →
      Simulates related (leftNext value) (rightNext value) leftFinal rightFinal) :
    Simulates related (leftFirst >>= leftNext) (rightFirst >>= rightNext) machine other := by
  refine Simulates.bind first ?_ ?_
  · intro value final returns
    unfold Mirrors Simulates at first
    rw [returns] at first
    generalize rightFirst.run.run other = ran at first
    cases first with
    | ok holds => exact holds.2.depth
  · intro left right leftFinal rightFinal returns holds similar
    obtain ⟨rfl, calm⟩ := holds
    exact next right leftFinal rightFinal returns calm similar

theorem Simulates.imp {strong weak : α → β → Machine → Prop} {left : RunM α} {right : RunM β}
    (simulates : Simulates strong left right machine other)
    (weaken : ∀ leftValue rightValue final, left.Returns machine leftValue final →
      strong leftValue rightValue final → weak leftValue rightValue final) :
    Simulates weak left right machine other := by
  unfold Simulates at simulates ⊢
  cases ran : left.run.run machine with
  | mk outcome final =>
      rw [ran] at simulates
      generalize right.run.run other = rightRan at simulates ⊢
      cases simulates with
      | ok holds similar => exact .ok (weaken _ _ _ ran holds) similar
      | error similar => exact .error similar

theorem Simulates.discard {related : α → β → Machine → Prop} {target : Unit → β → Machine → Prop}
    {left : RunM α} {right : RunM β} (simulates : Simulates related left right machine other)
    (weaken : ∀ leftValue rightValue final, related leftValue rightValue final →
      target () rightValue final) :
    Simulates target (do
      let _ ← left
      pure ()) right machine other := by
  unfold Simulates at simulates ⊢
  rw [run_bind_eq]
  generalize left.run.run machine = leftRan at simulates ⊢
  generalize right.run.run other = rightRan at simulates ⊢
  cases simulates with
  | ok holds similar => exact .ok (weaken _ _ _ holds) similar
  | error similar => exact .error similar

theorem Mirrors.bind {leftFirst rightFirst : RunM α} {leftNext rightNext : α → RunM β}
    (first : Mirrors leftFirst rightFirst machine other)
    (next : ∀ value leftFinal rightFinal, leftFirst.Returns machine value leftFinal →
      machine.scopes.Calm leftFinal.scopes → leftFinal.Similar rightFinal →
      Mirrors (leftNext value) (rightNext value) leftFinal rightFinal) :
    Mirrors (leftFirst >>= leftNext) (rightFirst >>= rightNext) machine other := by
  refine first.bindTo fun value leftFinal rightFinal returns calm similar => ?_
  refine (next value leftFinal rightFinal returns calm similar).imp ?_
  intro leftValue rightValue final _ holds
  exact ⟨holds.1, calm.trans holds.2⟩

def Respects (action : RunM α) : Prop :=
  ∀ machine other : Machine, machine.Similar other → Mirrors action action machine other

namespace Respects

theorem pure (value : α) : Respects (Pure.pure value : RunM α) :=
  fun _ _ similar => .ok ⟨rfl, .refl _⟩ similar

theorem throw (interruption : Interruption) :
    Respects (MonadExcept.throw interruption : RunM α) :=
  fun _ _ similar => .throw similar interruption

theorem bind {first : RunM α} {next : α → RunM β} (firstRespects : Respects first)
    (nextRespects : ∀ value, Respects (next value)) : Respects (first >>= next) :=
  fun machine other similar => (firstRespects machine other similar).bind
    fun value leftFinal rightFinal _ _ finals => nextRespects value leftFinal rightFinal finals

theorem getStore : Respects RunM.getStore :=
  fun _ _ similar => .ok ⟨similar.store.symm, .refl _⟩ similar

theorem report (level : LogLevel) (message : String) (fields : List (String × LogValue)) :
    Respects (RunM.report level message fields) := by
  intro machine other similar
  refine .ok ⟨rfl, .refl _⟩ ⟨similar.bindings, similar.store, similar.now, ?_, similar.requests⟩
  exact congrArg (·.push ⟨level, message, fields⟩) similar.logs

theorem reportAll (events : List LogEvent) : Respects (RunM.reportAll events) := by
  intro machine other similar
  refine .ok ⟨rfl, .refl _⟩ ⟨similar.bindings, similar.store, similar.now, ?_, similar.requests⟩
  exact congrArg (· ++ events.toArray) similar.logs

theorem recordRequest (service : Service) (request : JsonObject) :
    Respects (RunM.recordRequest service request) := by
  intro machine other similar
  refine .ok ⟨rfl, .refl _⟩ ⟨similar.bindings, similar.store, similar.now, similar.logs, ?_⟩
  exact congrArg (·.push (service, request)) similar.requests

theorem onStore (action : StoreM α) : Respects (RunM.onStore action) := by
  intro machine other similar
  have same : action.run other.store = action.run machine.store := by rw [similar.store]
  refine .ok ⟨congrArg Prod.fst same, .refl _⟩ ⟨similar.bindings, ?_, similar.now, similar.logs,
    similar.requests⟩
  exact (congrArg Prod.snd same).symm

theorem ofExcept (result : Except Cause α) (location : Span) :
    Respects (RunM.ofExcept result location) := by
  cases result with
  | ok value => exact .pure value
  | error cause => exact .throw _

theorem onStoreAt (location : Span) (action : StoreExceptM α) :
    Respects (RunM.onStoreAt location action) :=
  .bind (.onStore _) fun result => .ofExcept result location

theorem onScopesAt {location : Span} {change : ScopeStack → Except Cause ScopeStack}
    (congruent : ∀ left right : ScopeStack, left.bindings = right.bindings →
      (change left).map ScopeStack.bindings = (change right).map ScopeStack.bindings)
    (calm : ∀ stack changed, change stack = .ok changed → stack.Calm changed) :
    Respects (RunM.onScopesAt location change) := by
  intro machine other similar
  have same := congruent machine.scopes other.scopes similar.bindings
  unfold Mirrors Simulates
  rw [run_onScopesAt, run_onScopesAt]
  cases left : change machine.scopes with
  | ok changed =>
      cases right : change other.scopes with
      | ok otherChanged =>
          rw [left, right] at same
          exact .ok ⟨rfl, calm _ _ left⟩
            ⟨Except.ok.inj same, similar.store, similar.now, similar.logs, similar.requests⟩
      | error => rw [left, right] at same; cases same
  | error cause =>
      cases right : change other.scopes with
      | ok => rw [left, right] at same; cases same
      | error otherCause =>
          rw [left, right] at same
          cases same
          refine .error ?_
          rw [Machine.leaving_of_depth_le (Nat.le_refl _)]
          exact similar

theorem declare (location : Span) (name : String) (value : Value) :
    Respects (RunM.onScopesAt location (·.declare name value)) := by
  refine .onScopesAt (fun _ _ same => ScopeStack.declare_congr same name value) ?_
  intro stack changed declared
  obtain ⟨-, rfl⟩ := ScopeStack.declare_eq_ok declared
  exact ⟨rfl, Nat.le_refl _, fun _ _ => rfl⟩

theorem rebind (location : Span) (name : String) (value : Value) :
    Respects (RunM.onScopesAt location (·.rebind name value)) := by
  refine .onScopesAt (fun _ _ same => ScopeStack.rebind_congr same name value) ?_
  intro stack changed rebound
  obtain ⟨inner, slots⟩ := ScopeStack.rebind_eq_ok rebound
  exact ScopeStack.calm_of_outline (ScopeStack.rebindIn?_outline inner) slots

theorem wait (deadlines : List Nat) (millis : Nat) :
    Respects (FlowScript.wait deadlines millis) := by
  intro machine other similar
  unfold Mirrors Simulates
  rw [run_wait, run_wait, ← similar.now]
  cases firstDeadline? (machine.now + min millis longestWait) deadlines with
  | none => exact .ok ⟨rfl, .refl _⟩ ⟨similar.bindings, similar.store, rfl, similar.logs,
      similar.requests⟩
  | some first =>
      refine .error ?_
      rw [Machine.leaving_of_depth_le (Nat.le_refl _)]
      exact ⟨similar.bindings, similar.store, rfl, similar.logs, similar.requests⟩

end Respects

end

end FlowScript
