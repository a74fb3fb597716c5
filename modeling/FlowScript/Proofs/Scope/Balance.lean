import FlowScript.Proofs.After
import FlowScript.Proofs.Scope.Stack

/-!
# Balanced computations

A computation is balanced when it leaves the stack of scopes as it found it,
except for the variables, the signal and the result of the innermost scope. One
that is abandoned may leave further scopes behind, above balanced ones.
-/

set_option autoImplicit false

namespace FlowScript

open RunM

namespace ScopeStack

/-- The same scopes, except for values and for what the innermost scope may change:
its variables, its signal and the result of its function. -/
structure Balanced (before after : ScopeStack) : Prop where
  depth : after.depth = before.depth
  kind : after.current.kind = before.current.kind
  slot : after.current.slot = before.current.slot
  /-- Scopes below the current one keep their kind, slot, names and signal. -/
  outer : after.outer.map Scope.outline = before.outer.map Scope.outline
  slots_le : before.slots.size ≤ after.slots.size
  /-- Other functions keep their results. -/
  results : ∀ slot < before.slots.size, slot ≠ before.current.slot →
    after.slots[slot]? = before.slots[slot]?

/-- Balanced once the scopes above the former current one are left. -/
structure Above (before after : ScopeStack) : Prop where
  depth_le : before.depth ≤ after.depth
  balanced : before.Balanced (after.truncate before.depth)

theorem Balanced.of_outer {before after : ScopeStack}
    (kind : after.current.kind = before.current.kind)
    (slot : after.current.slot = before.current.slot)
    (outer : after.outer.map Scope.outline = before.outer.map Scope.outline)
    (slots_le : before.slots.size ≤ after.slots.size)
    (results : ∀ slot < before.slots.size, slot ≠ before.current.slot →
      after.slots[slot]? = before.slots[slot]?) : before.Balanced after where
  depth := by
    have lengths := congrArg List.length outer
    rw [List.length_map, List.length_map] at lengths
    exact congrArg Nat.succ lengths
  kind := kind
  slot := slot
  outer := outer
  slots_le := slots_le
  results := results

theorem Balanced.refl (stack : ScopeStack) : stack.Balanced stack :=
  ⟨rfl, rfl, rfl, rfl, Nat.le_refl _, fun _ _ _ => rfl⟩

theorem Balanced.trans {first second third : ScopeStack} (left : first.Balanced second)
    (right : second.Balanced third) : first.Balanced third where
  depth := right.depth.trans left.depth
  kind := right.kind.trans left.kind
  slot := right.slot.trans left.slot
  outer := right.outer.trans left.outer
  slots_le := Nat.le_trans left.slots_le right.slots_le
  results slot inBounds other := by
    rw [right.results slot (Nat.lt_of_lt_of_le inBounds left.slots_le) (left.slot.symm ▸ other),
      left.results slot inBounds other]

theorem Balanced.above {before after : ScopeStack} (balanced : before.Balanced after) :
    before.Above after := by
  refine ⟨Nat.le_of_eq balanced.depth.symm, ?_⟩
  rw [truncate_of_depth_le (Nat.le_of_eq balanced.depth)]
  exact balanced

theorem Balanced.trans_above {first second third : ScopeStack} (left : first.Balanced second)
    (right : second.Above third) : first.Above third := by
  refine ⟨left.depth ▸ right.depth_le, left.trans ?_⟩
  rw [← left.depth]
  exact right.balanced

/-! ## Operations -/

theorem balanced_setFlow (stack : ScopeStack) (flow : FlowSignal) :
    stack.Balanced (stack.setFlow flow) :=
  .of_outer rfl rfl rfl (Nat.le_refl _) fun _ _ _ => rfl

theorem balanced_setReturn (stack : ScopeStack) (value : Value) :
    stack.Balanced (stack.setReturn value) := by
  refine .of_outer rfl rfl rfl (by simp [setReturn]) fun slot _ other => ?_
  exact Array.getElem?_setIfInBounds_ne (Ne.symm other)

theorem balanced_declare {stack changed : ScopeStack} {name : String} {value : Value}
    (declared : stack.declare name value = .ok changed) : stack.Balanced changed := by
  obtain ⟨-, rfl⟩ := declare_eq_ok declared
  exact .of_outer rfl rfl rfl (Nat.le_refl _) fun _ _ _ => rfl

theorem balanced_rebind {stack changed : ScopeStack} {name : String} {value : Value}
    (rebound : stack.rebind name value = .ok changed) : stack.Balanced changed := by
  obtain ⟨inner, slots⟩ := rebind_eq_ok rebound
  have outlines := rebindIn?_outline inner
  simp only [scopes, List.map_cons, List.cons.injEq] at outlines
  obtain ⟨current, outer⟩ := outlines
  refine .of_outer (congrArg Scope.Outline.kind current) (congrArg Scope.Outline.slot current)
    outer (Nat.le_of_eq (by rw [slots])) fun slot _ _ => by rw [slots]

theorem Balanced.leave {before after : ScopeStack} {kind : ScopeKind}
    (balanced : (before.push kind).Balanced after) {parent : Scope} {rest : List Scope}
    (outer : after.outer = parent :: rest) (flow : FlowSignal) :
    before.Balanced { after with current := { parent with flow }, outer := rest } := by
  have outlines := balanced.outer
  rw [outer, scopes_push, scopes, List.map_cons, List.map_cons, List.cons.injEq] at outlines
  obtain ⟨current, others⟩ := outlines
  have sizes : before.slots.size ≤ (before.push kind).slots.size := by
    cases kind <;> simp [push]
  refine .of_outer (congrArg Scope.Outline.kind current) (congrArg Scope.Outline.slot current)
    others (Nat.le_trans sizes balanced.slots_le) fun slot inBounds other => ?_
  -- A function scope has a slot of its own, any other scope that of its parent.
  have kept : (before.push kind).slots[slot]? = before.slots[slot]? := by
    cases kind with
    | function => simp [push, Array.getElem?_push, Nat.ne_of_lt inBounds]
    | loop | block => rfl
  have apart : slot ≠ (before.push kind).current.slot := by
    cases kind with
    | function => exact Nat.ne_of_lt inBounds
    | loop | block => exact other
  rw [balanced.results slot (Nat.lt_of_lt_of_le inBounds sizes) apart, kept]

theorem Balanced.exists_outer {before after : ScopeStack} {kind : ScopeKind}
    (balanced : (before.push kind).Balanced after) :
    ∃ parent rest, after.outer = parent :: rest := by
  cases outer : after.outer with
  | nil =>
      have depth := balanced.depth
      rw [depth_push] at depth
      simp [ScopeStack.depth, outer] at depth
  | cons parent rest => exact ⟨parent, rest, rfl⟩

theorem Balanced.pop {before after : ScopeStack} {kind : ScopeKind}
    (balanced : (before.push kind).Balanced after) : before.Balanced after.pop.2 := by
  obtain ⟨parent, rest, outer⟩ := balanced.exists_outer
  unfold ScopeStack.pop
  rw [outer]
  dsimp only
  split
  · exact balanced.leave outer parent.flow
  · exact balanced.leave outer after.current.flow

/-- The scope around the one that is left takes its signal, or keeps its own. -/
theorem Balanced.flow_pop {before after : ScopeStack} {kind : ScopeKind}
    (balanced : (before.push kind).Balanced after) :
    after.pop.2.flow = if after.current.stopsSignal then before.flow else after.flow := by
  obtain ⟨parent, rest, outer⟩ := balanced.exists_outer
  have outlines := balanced.outer
  rw [outer, scopes_push, scopes, List.map_cons, List.map_cons, List.cons.injEq] at outlines
  have parentFlow : parent.flow = before.flow := congrArg Scope.Outline.flow outlines.1
  unfold ScopeStack.pop
  rw [outer]
  dsimp only
  split
  · exact parentFlow
  · rfl

/-- A scope that is no function's leaves the result of its function in place. -/
theorem Balanced.returnValue?_pop {before after : ScopeStack} {kind : ScopeKind}
    (shared : kind ≠ .function) (balanced : (before.push kind).Balanced after) :
    after.pop.2.returnValue? = after.returnValue? := by
  have slot : after.pop.2.current.slot = after.current.slot := by
    rw [balanced.pop.slot, balanced.slot]
    cases kind with
    | function => exact absurd rfl shared
    | loop | block => rfl
  have slots : after.pop.2.slots = after.slots := by
    unfold ScopeStack.pop
    split <;> rfl
  unfold returnValue?
  rw [slot, slots]

theorem Balanced.truncate {before after : ScopeStack} {kind : ScopeKind}
    (balanced : (before.push kind).Balanced after) :
    before.Balanced (after.truncate before.depth) := by
  obtain ⟨parent, rest, outer⟩ := balanced.exists_outer
  have depth : after.depth = before.depth + 1 := by rw [balanced.depth, depth_push]
  have left : after.truncate before.depth = { after with current := parent, outer := rest } := by
    refine eq_of_scopes ?_ (by simp)
    rw [scopes_truncate _ before.depth_pos, depth, Nat.add_sub_cancel_left, scopes, outer]
    rfl
  rw [left]
  exact balanced.leave outer parent.flow

theorem Above.leave {before after : ScopeStack} {kind : ScopeKind}
    (above : (before.push kind).Above after) : before.Above after := by
  have depth := above.depth_le
  rw [depth_push] at depth
  refine ⟨Nat.le_of_succ_le depth, ?_⟩
  rw [← truncate_truncate before.depth_pos (Nat.le_succ _) depth]
  have balanced := above.balanced
  rw [depth_push] at balanced
  exact balanced.truncate

end ScopeStack

/-! ## Computations -/

/-- Ended by itself, with a value or a failure, and was not abandoned. -/
def settled {α : Type} : Except Interruption α → Bool
  | .ok _ => true
  | .error interruption => interruption.isFailure

/-- The computation leaves the stack alone. -/
def Quiet {α : Type} (action : RunM α) : Prop :=
  ∀ machine, After action.run machine fun _ final => final.scopes = machine.scopes

def Balances {α : Type} (action : RunM α) : Prop :=
  ∀ machine, After action.run machine fun outcome final =>
    machine.scopes.Above final.scopes ∧
      (settled outcome → machine.scopes.Balanced final.scopes)

section

variable {α β : Type}

namespace Quiet

theorem pure (value : α) : Quiet (Pure.pure value : RunM α) := fun _ => rfl

theorem throw (interruption : Interruption) : Quiet (MonadExcept.throw interruption : RunM α) :=
  fun _ => rfl

theorem get : Quiet (MonadState.get : RunM Machine) := fun _ => rfl

theorem bind {first : RunM α} {next : α → RunM β} (firstQuiet : Quiet first)
    (nextQuiet : ∀ value, Quiet (next value)) : Quiet (first >>= next) := by
  intro machine
  simp only [after_run_bind]
  refine (firstQuiet machine).imp fun outcome middle same => ?_
  cases outcome with
  | ok value => exact (nextQuiet value middle).imp fun _ _ final => final.trans same
  | error => exact same

theorem tryCatch {action : RunM α} {handler : Interruption → RunM α} (quiet : Quiet action)
    (handles : ∀ interruption, Quiet (handler interruption)) :
    Quiet (MonadExcept.tryCatch action handler) := by
  intro machine
  simp only [after_run_tryCatch]
  refine (quiet machine).imp fun outcome middle same => ?_
  cases outcome with
  | ok => exact same
  | error interruption =>
      exact (handles interruption middle).imp fun _ _ final => final.trans same

theorem getStore : Quiet RunM.getStore := fun _ => rfl

theorem getScopes : Quiet RunM.getScopes := fun _ => rfl

theorem report (level : LogLevel) (message : String) (fields : List (String × LogValue)) :
    Quiet (RunM.report level message fields) := fun _ => rfl

theorem onStore (action : StoreM α) : Quiet (RunM.onStore action) := fun _ => rfl

theorem ofExcept (result : Except Cause α) (location : Span) :
    Quiet (RunM.ofExcept result location) := by
  cases result with
  | ok value => exact .pure value
  | error cause => exact .throw _

theorem onStoreAt (location : Span) (action : StoreExceptM α) :
    Quiet (RunM.onStoreAt location action) :=
  .bind (.onStore _) fun result => .ofExcept result location

theorem wait (deadlines : List Nat) (millis : Nat) : Quiet (FlowScript.wait deadlines millis) := by
  intro machine
  simp only [FlowScript.wait, after_run_bind, after_run_get]
  split
  · rfl
  · rfl

theorem withTimeout {context : Context} {timeout : Duration} {action : Context → RunM α}
    (quiet : ∀ inner, Quiet (action inner)) :
    Quiet (FlowScript.withTimeout context timeout action) := by
  refine .bind .get fun machine => .tryCatch ?_ fun interruption => ?_
  · rw [map_eq_pure_bind]
    exact .bind (quiet _) fun _ => .pure _
  · split
    · exact .pure _
    · exact .throw _

end Quiet

namespace Balances

theorem of_quiet {action : RunM α} (quiet : Quiet action) : Balances action := by
  intro machine
  refine (quiet machine).imp fun outcome final same => ?_
  rw [same]
  exact ⟨(ScopeStack.Balanced.refl _).above, fun _ => .refl _⟩

theorem pure (value : α) : Balances (Pure.pure value : RunM α) := .of_quiet (.pure value)

theorem throw (interruption : Interruption) :
    Balances (MonadExcept.throw interruption : RunM α) := .of_quiet (.throw interruption)

theorem bind {first : RunM α} {next : α → RunM β} (firstBalances : Balances first)
    (nextBalances : ∀ value, Balances (next value)) : Balances (first >>= next) := by
  intro machine
  simp only [after_run_bind]
  refine (firstBalances machine).imp ?_
  rintro outcome middle ⟨above, balanced⟩
  cases outcome with
  | ok value =>
      have here := balanced rfl
      refine (nextBalances value middle).imp fun _ final ends => ?_
      exact ⟨here.trans_above ends.1, fun ended => here.trans (ends.2 ended)⟩
  | error => exact ⟨above, balanced⟩

theorem modifyScopes {change : ScopeStack → ScopeStack}
    (balanced : ∀ stack : ScopeStack, stack.Balanced (change stack)) :
    Balances (RunM.modifyScopes change) :=
  fun machine => ⟨(balanced machine.scopes).above, fun _ => balanced machine.scopes⟩

theorem onScopesAt {location : Span} {change : ScopeStack → Except Cause ScopeStack}
    (balanced : ∀ stack changed, change stack = .ok changed → stack.Balanced changed) :
    Balances (RunM.onScopesAt location change) := by
  intro machine
  simp only [RunM.onScopesAt, after_getScopes, after_run_bind]
  cases result : change machine.scopes with
  | ok changed =>
      have here := balanced _ _ result
      exact ⟨here.above, fun _ => here⟩
  | error cause => exact ⟨(ScopeStack.Balanced.refl _).above, fun _ => .refl _⟩

end Balances

end

end FlowScript
