import FlowScript.Run.Machine

/-!
# Postconditions of computations

`After action state post` says how a computation ends when it starts from a
state. There is one rewriting rule for every way in which computations are put
together, so that a proof about a computation follows its text.
-/

set_option autoImplicit false

namespace FlowScript

/-- The result of the computation and the state it leaves satisfy `post`. -/
def After {σ α : Type} (action : StateM σ α) (state : σ) (post : α → σ → Prop) : Prop :=
  post (action.run state).1 (action.run state).2

section

variable {σ ε α β : Type} {state : σ}

theorem After.imp {action : StateM σ α} {weak strong : α → σ → Prop}
    (ends : After action state strong)
    (weaken : ∀ result final, strong result final → weak result final) :
    After action state weak :=
  weaken _ _ ends

theorem After.and {action : StateM σ α} {first second : α → σ → Prop}
    (ends : After action state first) (alsoEnds : After action state second) :
    After action state fun result final => first result final ∧ second result final :=
  ⟨ends, alsoEnds⟩

theorem after_eq (action : StateM σ α) :
    After action state fun result final => action.run state = (result, final) :=
  rfl

theorem After.of_run {action : StateM σ α} {post : α → σ → Prop} {result : α} {final : σ}
    (ends : After action state post) (ran : action.run state = (result, final)) :
    post result final := by
  unfold After at ends
  rw [ran] at ends
  exact ends

/-! ## Computations that cannot fail -/

@[simp] theorem after_pure (result : α) (post : α → σ → Prop) :
    After (pure result) state post ↔ post result state := Iff.rfl

@[simp] theorem after_bind (first : StateM σ α) (next : α → StateM σ β)
    (post : β → σ → Prop) :
    After (first >>= next) state post ↔
      After first state fun result middle => After (next result) middle post := Iff.rfl

@[simp] theorem after_get (post : σ → σ → Prop) :
    After (get : StateM σ σ) state post ↔ post state state := Iff.rfl

@[simp] theorem after_modify (change : σ → σ) (post : PUnit → σ → Prop) :
    After (modify change) state post ↔ post () (change state) := Iff.rfl

/-- What holds of the results so far holds of all results once a list is mapped. -/
theorem after_mapM {change : α → StateM σ β} (invariant : List β → σ → Prop)
    (items : List α) (start : invariant [] state)
    (step : ∀ (done : List β) (item : α) (middle : σ), item ∈ items → invariant done middle →
      After (change item) middle fun result final => invariant (done ++ [result]) final) :
    After (items.mapM change) state invariant := by
  suffices mapped : ∀ (rest : List α) (done : List β) (middle : σ),
      (∀ item ∈ rest, item ∈ items) → invariant done middle →
      After (rest.mapM change) middle fun results final => invariant (done ++ results) final from
    mapped items [] state (fun _ member => member) start
  intro rest
  induction rest with
  | nil =>
      intro done middle _ holds
      simpa using holds
  | cons item rest ih =>
      intro done middle members holds
      rw [List.mapM_cons]
      simp only [after_bind, after_pure]
      refine (step done item middle (members item List.mem_cons_self) holds).imp ?_
      intro result next stepped
      refine (ih (done ++ [result]) next
        (fun other member => members other (List.mem_cons_of_mem _ member)) stepped).imp ?_
      intro results final mapped
      simpa using mapped

/-! ## Computations that can fail -/

theorem run_bind_eq (first : ExceptT ε (StateM σ) α) (next : α → ExceptT ε (StateM σ) β)
    (state : σ) :
    (first >>= next).run.run state =
      match first.run.run state with
      | (.ok result, middle) => (next result).run.run middle
      | (.error error, middle) => (.error error, middle) := by
  rw [ExceptT.run_bind, StateT.run_bind]
  cases first.run.run state with
  | mk outcome middle => cases outcome <;> rfl

theorem run_tryCatch_eq (action : ExceptT ε (StateM σ) α) (handler : ε → ExceptT ε (StateM σ) α)
    (state : σ) :
    (tryCatch action handler).run.run state =
      match action.run.run state with
      | (.ok result, middle) => (.ok result, middle)
      | (.error error, middle) => (handler error).run.run middle := by
  simp only [tryCatch, tryCatchThe, MonadExceptOf.tryCatch, ExceptT.tryCatch, ExceptT.run_mk,
    StateT.run_bind]
  cases ran : action.run.run state with
  | mk outcome middle =>
      have sameRun : (StateT.run action state : Id _) = (outcome, middle) := ran
      rw [sameRun]
      cases outcome <;> rfl

@[simp] theorem after_run_pure (result : α) (post : Except ε α → σ → Prop) :
    After (ExceptT.run (pure result)) state post ↔ post (.ok result) state := Iff.rfl

@[simp] theorem after_run_throw (error : ε) (post : Except ε α → σ → Prop) :
    After (ExceptT.run (throw error)) state post ↔ post (.error error) state := Iff.rfl

@[simp] theorem after_run_bind (first : ExceptT ε (StateM σ) α)
    (next : α → ExceptT ε (StateM σ) β) (post : Except ε β → σ → Prop) :
    After (ExceptT.run (first >>= next)) state post ↔
      After first.run state fun outcome middle =>
        match outcome with
        | .ok result => After (next result).run middle post
        | .error error => post (.error error) middle := by
  simp only [After, run_bind_eq]
  cases first.run.run state with
  | mk outcome middle => cases outcome <;> exact Iff.rfl

@[simp] theorem after_run_tryCatch (action : ExceptT ε (StateM σ) α)
    (handler : ε → ExceptT ε (StateM σ) α) (post : Except ε α → σ → Prop) :
    After (ExceptT.run (tryCatch action handler)) state post ↔
      After action.run state fun outcome middle =>
        match outcome with
        | .ok result => post (.ok result) middle
        | .error error => After (handler error).run middle post := by
  simp only [After, run_tryCatch_eq]
  cases action.run.run state with
  | mk outcome middle => cases outcome <;> exact Iff.rfl

@[simp] theorem after_run_get (post : Except ε σ → σ → Prop) :
    After (ExceptT.run get) state post ↔ post (.ok state) state := Iff.rfl

@[simp] theorem after_run_set (changed : σ) (post : Except ε PUnit → σ → Prop) :
    After (ExceptT.run (set changed)) state post ↔ post (.ok ()) changed := Iff.rfl

@[simp] theorem after_run_modify (change : σ → σ) (post : Except ε PUnit → σ → Prop) :
    After (ExceptT.run (modify change)) state post ↔ post (.ok ()) (change state) := Iff.rfl

@[simp] theorem after_run_lift (action : StateM σ α) (post : Except ε α → σ → Prop) :
    After (ExceptT.run (liftM action)) state post ↔
      After action state fun result final => post (.ok result) final := Iff.rfl

@[simp] theorem after_run_except (result : Except ε α) (post : Except ε α → σ → Prop) :
    After (ExceptT.run (liftM result)) state post ↔ post result state := by
  cases result <;> exact Iff.rfl

end

/-! ## Computations of a running script -/

def Interruption.isFailure : Interruption → Bool
  | .failed _ => true
  | .expired _ | .exhausted => false

/-- The computation ends with a value. -/
def RunM.Returns {α : Type} (action : RunM α) (machine : Machine) (value : α)
    (final : Machine) : Prop :=
  action.run.run machine = (.ok value, final)

namespace RunM.Returns

variable {α β : Type} {machine middle final : Machine} {value : α} {result : β}

theorem unique {action : RunM α} {other : α} {otherFinal : Machine}
    (returns : action.Returns machine value final)
    (alsoReturns : action.Returns machine other otherFinal) :
    value = other ∧ final = otherFinal := by
  have same := returns.symm.trans alsoReturns
  cases same
  exact ⟨rfl, rfl⟩

theorem of_run {action other : RunM α} (same : action.run.run machine = other.run.run middle)
    (returns : action.Returns machine value final) : other.Returns middle value final :=
  same.symm.trans returns

theorem run_bind {first : RunM α} (next : α → RunM β)
    (returns : first.Returns machine value middle) :
    (first >>= next).run.run machine = (next value).run.run middle := by
  rw [run_bind_eq, returns]

theorem bind {first : RunM α} {next : α → RunM β} (returns : first.Returns machine value middle)
    (nextReturns : (next value).Returns middle result final) :
    (first >>= next).Returns machine result final :=
  (returns.run_bind next).trans nextReturns

theorem steps {first : RunM α} {next : α → RunM β}
    (returns : (first >>= next).Returns machine result final) :
    ∃ value middle, first.Returns machine value middle ∧
      (next value).Returns middle result final := by
  unfold RunM.Returns at returns
  rw [run_bind_eq] at returns
  cases ran : first.run.run machine with
  | mk outcome middle =>
      rw [ran] at returns
      cases outcome with
      | ok value => exact ⟨value, middle, ran, returns⟩
      | error interruption => cases returns

theorem rest {first : RunM α} {next : α → RunM β}
    (returns : (first >>= next).Returns machine result final)
    (firstReturns : first.Returns machine value middle) :
    (next value).Returns middle result final := by
  obtain ⟨other, otherMiddle, otherReturns, nextReturns⟩ := returns.steps
  obtain ⟨rfl, rfl⟩ := firstReturns.unique otherReturns
  exact nextReturns

theorem of_isSome {action : RunM α} (ends : (action.run.run machine).1.toOption.isSome) :
    action.Returns machine ((action.run.run machine).1.toOption.get ends)
      (action.run.run machine).2 := by
  unfold RunM.Returns
  generalize action.run.run machine = ran at ends ⊢
  obtain ⟨outcome, final⟩ := ran
  cases outcome with
  | ok value => rfl
  | error interruption => cases ends

theorem unit_of_isSome {action : RunM Unit} (ends : (action.run.run machine).1.toOption.isSome) :
    action.Returns machine () (action.run.run machine).2 := of_isSome ends

theorem of_pure {other : α} (returns : (Pure.pure other : RunM α).Returns machine value final) :
    value = other ∧ final = machine := by
  cases returns
  exact ⟨rfl, rfl⟩

end RunM.Returns

theorem run_onScopesAt (location : Span) (change : ScopeStack → Except Cause ScopeStack)
    (machine : Machine) :
    (RunM.onScopesAt location change).run.run machine =
      match change machine.scopes with
      | .ok changed => (.ok (), { machine with scopes := changed })
      | .error cause => (.error (.failed ⟨cause, some location⟩), machine) := by
  have unfolded : (RunM.onScopesAt location change).run.run machine =
      (RunM.ofExcept (change machine.scopes) location >>= fun changed =>
        RunM.modifyScopes fun _ => changed).run.run machine := rfl
  rw [unfolded]
  cases change machine.scopes <;> rfl

theorem run_onStoreAt {α : Type} (location : Span) (action : StoreExceptM α)
    (machine : Machine) :
    (RunM.onStoreAt location action).run.run machine =
      match action.run.run machine.store with
      | (.ok value, store) => (.ok value, { machine with store })
      | (.error cause, store) => (.error (.failed ⟨cause, some location⟩), { machine with store }) := by
  have unfolded : (RunM.onStoreAt location action).run.run machine =
      (RunM.ofExcept (action.run.run machine.store).1 location).run.run
        { machine with store := (action.run.run machine.store).2 } := rfl
  rw [unfolded]
  cases action.run.run machine.store with
  | mk outcome store => cases outcome <;> rfl

theorem RunM.Returns.onScopesAt {location : Span} {change : ScopeStack → Except Cause ScopeStack}
    {machine final : Machine}
    (returns : (RunM.onScopesAt location change).Returns machine () final) :
    ∃ scopes, change machine.scopes = .ok scopes ∧ final = { machine with scopes } := by
  unfold RunM.Returns at returns
  rw [run_onScopesAt] at returns
  cases changed : change machine.scopes with
  | ok scopes =>
      rw [changed] at returns
      cases returns
      exact ⟨scopes, rfl, rfl⟩
  | error cause =>
      rw [changed] at returns
      cases returns

theorem RunM.Returns.onStoreAt {α : Type} {location : Span} {action : StoreExceptM α}
    {machine final : Machine} {value : α}
    (returns : (RunM.onStoreAt location action).Returns machine value final) :
    ∃ store, action.run.run machine.store = (.ok value, store) ∧
      final = { machine with store } := by
  unfold RunM.Returns at returns
  rw [run_onStoreAt] at returns
  cases ran : action.run.run machine.store with
  | mk outcome store =>
      rw [ran] at returns
      cases outcome with
      | ok =>
          cases returns
          exact ⟨store, rfl, rfl⟩
      | error => cases returns

section

variable {machine : Machine}

@[simp] theorem after_getScopes (post : Except Interruption ScopeStack → Machine → Prop) :
    After RunM.getScopes.run machine post ↔ post (.ok machine.scopes) machine := Iff.rfl

@[simp] theorem after_getDepth (post : Except Interruption Nat → Machine → Prop) :
    After RunM.getDepth.run machine post ↔ post (.ok machine.scopes.depth) machine := Iff.rfl

@[simp] theorem after_modifyScopes (change : ScopeStack → ScopeStack)
    (post : Except Interruption Unit → Machine → Prop) :
    After (RunM.modifyScopes change).run machine post ↔
      post (.ok ()) { machine with scopes := change machine.scopes } := Iff.rfl

end

end FlowScript
