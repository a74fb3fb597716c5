import FlowScript.Proofs.After

/-!
# Computations that keep an invariant

`Keeping holds action post` says that a computation keeps what holds of the state, and
that its results satisfy `post`. There is one rule for every way in which computations
are put together.
-/

set_option autoImplicit false

namespace FlowScript

/-- From a state that satisfies the invariant the computation ends in another one. -/
def Keeping {σ α : Type} (holds : σ → Prop) (action : StateM σ α) (post : α → Prop) : Prop :=
  ∀ state, holds state → After action state fun result final => holds final ∧ post result

/-- A value satisfies the one condition, an error the other one. -/
def Ends {ε α : Type} (blames : ε → Prop) (post : α → Prop) : Except ε α → Prop
  | .ok value => post value
  | .error error => blames error

namespace Keeping

variable {σ ε α β : Type} {holds : σ → Prop} {blames : ε → Prop} {post : β → Prop}

theorem pure {result : β} (ends : post result) :
    Keeping holds (Pure.pure result : StateM σ β) post :=
  fun _ start => ⟨start, ends⟩

theorem get : Keeping holds (MonadState.get : StateM σ σ) holds := fun _ start => ⟨start, start⟩

theorem modify {change : σ → σ} (keeps : ∀ state, holds state → holds (change state)) :
    Keeping holds (MonadState.modifyGet fun state => (PUnit.unit, change state) :
      StateM σ PUnit) fun _ => True :=
  fun state start => ⟨keeps state start, trivial⟩

theorem bind {first : StateM σ α} {next : α → StateM σ β} {between : α → Prop}
    (firstKeeps : Keeping holds first between)
    (nextKeeps : ∀ value, between value → Keeping holds (next value) post) :
    Keeping holds (first >>= next) post := by
  intro state start
  rw [after_bind]
  apply (firstKeeps state start).imp
  intro value middle ends
  exact nextKeeps value ends.2 middle ends.1

/-! ## Computations that can fail -/

theorem run_pure {result : β} (ends : post result) :
    Keeping holds (Pure.pure result : ExceptT ε (StateM σ) β).run (Ends blames post) :=
  fun _ start => ⟨start, ends⟩

theorem run_throw {error : ε} (blamed : blames error) :
    Keeping holds (throw error : ExceptT ε (StateM σ) β).run (Ends blames post) :=
  fun _ start => ⟨start, blamed⟩

theorem run_get :
    Keeping holds (MonadState.get : ExceptT ε (StateM σ) σ).run (Ends blames holds) :=
  fun _ start => ⟨start, start⟩

theorem run_modify {change : σ → σ} (keeps : ∀ state, holds state → holds (change state)) :
    Keeping holds (MonadState.modifyGet fun state => (PUnit.unit, change state) :
      ExceptT ε (StateM σ) PUnit).run (Ends blames fun _ => True) :=
  fun state start => ⟨keeps state start, trivial⟩

theorem run_lift {action : StateM σ β} (keeping : Keeping holds action post) :
    Keeping holds (liftM action : ExceptT ε (StateM σ) β).run (Ends blames post) := by
  intro state start
  rw [after_run_lift]
  exact keeping state start

theorem run_bind {first : ExceptT ε (StateM σ) α} {next : α → ExceptT ε (StateM σ) β}
    {between : α → Prop} (firstKeeps : Keeping holds first.run (Ends blames between))
    (nextKeeps : ∀ value, between value → Keeping holds (next value).run (Ends blames post)) :
    Keeping holds (first >>= next).run (Ends blames post) := by
  intro state start
  rw [after_run_bind]
  apply (firstKeeps state start).imp
  intro outcome middle ends
  cases outcome with
  | ok value => exact nextKeeps value ends.2 middle ends.1
  | error error => exact ends

end Keeping

end FlowScript
