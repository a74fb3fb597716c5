import FlowScript.Proofs.Growth.Order
import FlowScript.Proofs.Run.Closure

/-!
# Evaluation only adds

Whatever is evaluated or executed, and however it ends, the machine afterwards is
a greater one.
-/

set_option autoImplicit false

namespace FlowScript

open RunM

theorem StoreStep.grows {α : Type} {action : StoreM α} (step : StoreStep action) : Grows action :=
  fun store => step.keeps store.above (fun _ => trivial) (le_refl store)

theorem develops_grows : Develops fun before after => before ≤ after where
  refl := le_refl
  trans := le_trans
  scopes := Machine.le_withScopes
  clock _ _ := ⟨le_refl _, List.prefix_rfl, List.prefix_rfl⟩
  logs machine events := by
    refine ⟨le_refl _, ?_, List.prefix_rfl⟩
    exact Array.toList_append ▸ List.prefix_append _ _
  request machine request := by
    refine ⟨le_refl _, List.prefix_rfl, ?_⟩
    exact Array.toList_push ▸ List.prefix_append _ _
  store machine step := Machine.le_withStore (step.grows machine.store)

theorem growing : Closed fun {_} action => Grows action.run := develops_grows.closed

theorem evaluation_grows (depth : Nat) (context : Context) :
    (∀ expr, Grows (evaluate depth context expr).run) ∧
      ∀ statement, Grows (execute depth context statement).run :=
  growing.lockstep.evaluation depth rfl

end FlowScript
