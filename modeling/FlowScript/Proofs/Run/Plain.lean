import FlowScript.Proofs.Growth.Evaluation
import FlowScript.Proofs.Scope.Balance

/-!
# Plain computations

The parts of evaluation that evaluate nothing further are plain: they end by themselves,
leave the scopes and the clock alone and take nothing back.
-/

set_option autoImplicit false

namespace FlowScript

open RunM

structure Plain {α : Type} (action : RunM α) : Prop where
  quiet : Quiet action
  timeless : ∀ machine, After action.run machine fun outcome final =>
    settled outcome ∧ final.now = machine.now
  grows : Grows action.run

namespace Plain

theorem onStore {α : Type} {action : StoreM α} (grows : Grows action) :
    Plain (RunM.onStore action) :=
  ⟨.onStore action, fun _ => ⟨rfl, rfl⟩, grows_onStore grows⟩

theorem bind {α β : Type} {first : RunM α} {next : α → RunM β} (plain : Plain first)
    (nextPlain : ∀ value, Plain (next value)) : Plain (first >>= next) := by
  refine ⟨.bind plain.quiet fun value => (nextPlain value).quiet, fun machine => ?_,
    .run_bind plain.grows fun value => (nextPlain value).grows⟩
  rw [after_run_bind]
  refine (plain.timeless machine).imp ?_
  rintro outcome middle ⟨ends, now⟩
  cases outcome with
  | ok value =>
      refine ((nextPlain value).timeless middle).imp ?_
      rintro outcome final ⟨ends, later⟩
      exact ⟨ends, later.trans now⟩
  | error interruption => exact ⟨ends, now⟩

theorem getScopes : Plain RunM.getScopes :=
  ⟨.getScopes, fun _ => ⟨rfl, rfl⟩, growing.getScopes⟩

theorem lookup (name : Identifier) : Plain (resolve name []) := by
  refine bind getScopes fun scopes => ?_
  split
  · exact ⟨.pure _, fun _ => ⟨rfl, rfl⟩, .run_pure _⟩
  · exact ⟨.throw _, fun _ => ⟨rfl, rfl⟩, .run_throw _⟩

theorem composes : Sequences fun {_} action _ => Plain action where
  pure value := ⟨.pure value, fun _ => ⟨rfl, rfl⟩, .run_pure value⟩
  fail _ _ := ⟨.throw _, fun _ => ⟨rfl, rfl⟩, .run_throw _⟩
  getStore := ⟨.getStore, fun _ => ⟨rfl, rfl⟩, growing.composes.getStore⟩
  getScopes := getScopes
  lookup := lookup
  currentInstant context :=
    ⟨fun _ => rfl, fun _ => ⟨rfl, rfl⟩, growing.composes.currentInstant context⟩
  report level message fields :=
    ⟨.report level message fields, fun _ => ⟨rfl, rfl⟩, growing.report level message fields⟩
  onStore step := .onStore step.grows
  bind first next := bind first next

end Plain

/-- What holds of plain computations and passes through sequences composes. -/
theorem Sequences.of_plain {related : ∀ {α : Type}, RunM α → RunM α → Prop}
    (plain : ∀ {α : Type} {action : RunM α}, Plain action → related action action)
    (bind : ∀ {α β : Type} {left right : RunM α} {leftNext rightNext : α → RunM β},
      related left right → (∀ value, related (leftNext value) (rightNext value)) →
      related (left >>= leftNext) (right >>= rightNext)) : Sequences related where
  pure value := plain (Plain.composes.pure value)
  fail cause location := plain (Plain.composes.fail cause location)
  getStore := plain Plain.composes.getStore
  getScopes := plain Plain.getScopes
  lookup name := plain (Plain.lookup name)
  currentInstant context := plain (Plain.composes.currentInstant context)
  report level message fields := plain (Plain.composes.report level message fields)
  onStore step := plain (Plain.composes.onStore step)
  bind := bind

end FlowScript
