import FlowScript.Proofs.Storage.Machine

/-!
# Computations that keep machines sound

Rules for computations that leave a sound machine sound, however they end. The
cells that were free at some earlier point, the base, stay free. That lets values
wait in hand while other computations run.
-/

set_option autoImplicit false

namespace FlowScript

open RunM

variable {allowed : Workflow → Prop} {base machine : Machine}

/-- The computation leaves the machine sound, holds no cell that was free in the
base, and its result, if there is one, has the given property. -/
def Preserves {α : Type} (allowed : Workflow → Prop) (base : Machine) (action : RunM α)
    (machine : Machine) (result : α → Machine → Prop) : Prop :=
  After action.run machine fun outcome final =>
    (final.Sound allowed ∧ base.Keeps final) ∧ ∀ value, outcome = .ok value → result value final

namespace Preserves

variable {α β : Type}

theorem pure {value : α} {result : α → Machine → Prop} (sound : machine.Sound allowed)
    (kept : base.Keeps machine) (holds : result value machine) :
    Preserves allowed base (Pure.pure value) machine result := by
  refine ⟨⟨sound, kept⟩, fun other same => ?_⟩
  cases same
  exact holds

theorem throw {interruption : Interruption} {result : α → Machine → Prop}
    (sound : machine.Sound allowed) (kept : base.Keeps machine) :
    Preserves allowed base (MonadExcept.throw interruption) machine result :=
  ⟨⟨sound, kept⟩, fun _ same => by cases same⟩

theorem imp {action : RunM α} {strong weak : α → Machine → Prop}
    (preserves : Preserves allowed base action machine strong)
    (weaken : ∀ value final, final.Sound allowed → strong value final → weak value final) :
    Preserves allowed base action machine weak :=
  After.imp preserves fun _ final ends =>
    ⟨ends.1, fun value same => weaken value final ends.1.1 (ends.2 value same)⟩

theorem returned {action : RunM α} {result : α → Machine → Prop} {value : α} {final : Machine}
    (preserves : Preserves allowed base action machine result)
    (returns : action.Returns machine value final) :
    final.Sound allowed ∧ result value final := by
  obtain ⟨⟨sound, -⟩, holds⟩ := After.of_run preserves returns
  exact ⟨sound, holds value rfl⟩

theorem keeps {action : RunM α} {result : α → Machine → Prop} {value : α} {final : Machine}
    (preserves : Preserves allowed base action machine result)
    (returns : action.Returns machine value final) : base.Keeps final :=
  (After.of_run preserves returns).1.2

theorem rebase {action : RunM α} {result : α → Machine → Prop}
    (preserves : Preserves allowed machine action machine result) (kept : base.Keeps machine) :
    Preserves allowed base action machine result :=
  After.imp preserves fun _ _ ends => ⟨⟨ends.1.1, kept.trans ends.1.2⟩, ends.2⟩

theorem bindBase {first : RunM α} {next : α → RunM β} {middle : α → Machine → Prop}
    {result : β → Machine → Prop}
    (firstPreserves : Preserves allowed base first machine middle)
    (nextPreserves : ∀ value after, after.Sound allowed → base.Keeps after →
      middle value after → Preserves allowed base (next value) after result) :
    Preserves allowed base (first >>= next) machine result := by
  simp only [Preserves, after_run_bind]
  refine After.imp firstPreserves ?_
  rintro outcome after ⟨⟨sound, kept⟩, holds⟩
  cases outcome with
  | ok value => exact nextPreserves value after sound kept (holds value rfl)
  | error interruption => exact ⟨⟨sound, kept⟩, fun _ same => by cases same⟩

theorem bind {first : RunM α} {next : α → RunM β} {middle : α → Machine → Prop}
    {result : β → Machine → Prop} (kept : base.Keeps machine)
    (firstPreserves : Preserves allowed machine first machine middle)
    (nextPreserves : ∀ value after, after.Sound allowed → machine.Keeps after →
      base.Keeps after → middle value after → Preserves allowed base (next value) after result) :
    Preserves allowed base (first >>= next) machine result := by
  have both : Preserves allowed base first machine fun value after =>
      machine.Keeps after ∧ middle value after :=
    After.imp firstPreserves fun _ _ ends =>
      ⟨⟨ends.1.1, kept.trans ends.1.2⟩, fun value same => ⟨ends.1.2, ends.2 value same⟩⟩
  refine both.bindBase ?_
  rintro value after sound afterKept ⟨here, holds⟩
  exact nextPreserves value after sound here afterKept holds

theorem quiet {change : Machine → Machine} (sound : machine.Sound allowed)
    (kept : base.Keeps machine) (scopes : (change machine).scopes = machine.scopes)
    (store : (change machine).store = machine.store) :
    Preserves allowed base (modify change) machine fun _ final =>
      final.scopes = machine.scopes ∧ final.store = machine.store :=
  ⟨⟨sound.congr scopes store, kept.congr scopes store⟩, fun _ _ => ⟨scopes, store⟩⟩

theorem modifyScopes {change : ScopeStack → ScopeStack} (sound : machine.Sound allowed)
    (kept : base.Keeps machine) (narrows : machine.scopes.Narrows (change machine.scopes)) :
    Preserves allowed base (RunM.modifyScopes change) machine fun _ _ => True :=
  ⟨⟨sound.narrow narrows, kept.narrow narrows⟩, fun _ _ => trivial⟩

theorem onStore {action : StoreM α} {result : α → Store → Prop} (sound : machine.Sound allowed)
    (kept : base.Keeps machine)
    (ends : After action machine.store fun value final =>
      machine.store.Advances allowed final ∧ result value final) :
    Preserves allowed base (RunM.onStore action) machine fun value final =>
      final.scopes = machine.scopes ∧ result value final.store := by
  refine ⟨⟨sound.withStore ends.1, kept.withStore ends.1.evolves⟩, fun value same => ?_⟩
  cases same
  exact ⟨rfl, ends.2⟩

theorem onStoreAt {action : StoreExceptM α} {result : α → Store → Prop} {location : Span}
    (sound : machine.Sound allowed) (kept : base.Keeps machine)
    (yields : machine.store.Yields allowed action result) :
    Preserves allowed base (RunM.onStoreAt location action) machine fun value final =>
      final.scopes = machine.scopes ∧ result value final.store := by
  have ran : Preserves allowed machine (RunM.onStore action.run) machine fun outcome final =>
      final.scopes = machine.scopes ∧ ∀ value, outcome = .ok value → result value final.store :=
    Preserves.onStore sound (.refl machine) yields
  refine Preserves.bind kept ran ?_
  rintro outcome after afterSound - afterKept ⟨scopes, holds⟩
  cases outcome with
  | ok value => exact .pure afterSound afterKept ⟨scopes, holds value rfl⟩
  | error cause => exact .throw afterSound afterKept

theorem get {next : Machine → RunM β} {result : β → Machine → Prop}
    (preserves : Preserves allowed base (next machine) machine result) :
    Preserves allowed base (MonadState.get >>= next) machine result := by
  simp only [Preserves, after_run_bind, after_run_get]
  exact preserves

theorem getStore {next : Store → RunM β} {result : β → Machine → Prop}
    (preserves : Preserves allowed base (next machine.store) machine result) :
    Preserves allowed base (RunM.getStore >>= next) machine result := by
  simp only [Preserves, RunM.getStore, after_run_bind, after_run_get, after_run_pure]
  exact preserves

theorem getScopes {next : ScopeStack → RunM β} {result : β → Machine → Prop}
    (preserves : Preserves allowed base (next machine.scopes) machine result) :
    Preserves allowed base (RunM.getScopes >>= next) machine result := by
  simp only [Preserves, after_getScopes, after_run_bind]
  exact preserves

theorem getDepth {next : Nat → RunM β} {result : β → Machine → Prop}
    (preserves : Preserves allowed base (next machine.scopes.depth) machine result) :
    Preserves allowed base (RunM.getDepth >>= next) machine result := by
  simp only [Preserves, after_getDepth, after_run_bind]
  exact preserves

theorem ofExcept {outcome : Except Cause α} {location : Span} {result : α → Machine → Prop}
    (sound : machine.Sound allowed) (kept : base.Keeps machine)
    (holds : ∀ value, outcome = .ok value → result value machine) :
    Preserves allowed base (RunM.ofExcept outcome location) machine result := by
  cases outcome with
  | ok value => exact .pure sound kept (holds value rfl)
  | error cause => exact .throw sound kept

theorem onScopesAt {change : ScopeStack → Except Cause ScopeStack} {location : Span}
    (sound : machine.Sound allowed) (kept : base.Keeps machine)
    (changes : ∀ scopes, change machine.scopes = .ok scopes →
      Machine.Sound allowed { machine with scopes } ∧ base.Keeps { machine with scopes }) :
    Preserves allowed base (RunM.onScopesAt location change) machine fun _ _ => True := by
  unfold RunM.onScopesAt
  refine .getScopes ?_
  cases changed : change machine.scopes with
  | ok scopes => exact ⟨changes scopes changed, fun _ _ => trivial⟩
  | error cause => exact .throw sound kept

theorem declare {name : String} {value : Value} {location : Span}
    (sound : machine.Sound allowed) (kept : base.Keeps machine)
    (within : value.Within allowed machine.size)
    (loose : Loose base.size machine.held [value]) :
    Preserves allowed base (RunM.onScopesAt location (·.declare name value)) machine
      fun _ _ => True :=
  .onScopesAt sound kept fun _ declared => sound.declare kept within loose declared

theorem report {level : LogLevel} {message : String} {fields : List (String × LogValue)}
    (sound : machine.Sound allowed) (kept : base.Keeps machine) :
    Preserves allowed base (RunM.report level message fields) machine fun _ final =>
      final.scopes = machine.scopes ∧ final.store = machine.store :=
  .quiet sound kept rfl rfl

theorem allocate {kind : StoredKind} {cell : Cell} (sound : machine.Sound allowed)
    (kept : base.Keeps machine) (inHand : InHand allowed base.size cell.values machine) :
    Preserves allowed base (RunM.onStore (FlowScript.allocate kind cell)) machine
      fun value final => value.Within allowed final.size := by
  refine ⟨sound.allocate kept inHand, fun value same => ?_⟩
  cases same
  refine .stored ?_
  change machine.store.size < (machine.store.push cell).size
  rw [Store.size_push]
  exact Nat.lt_succ_self _

theorem reportThen {level : LogLevel} {message : String} {fields : List (String × LogValue)}
    {next : PUnit → RunM β} {result : β → Machine → Prop} (sound : machine.Sound allowed)
    (kept : base.Keeps machine)
    (nextPreserves : ∀ after, after.Sound allowed → base.Keeps after →
      after.store = machine.store → Preserves allowed base (next ()) after result) :
    Preserves allowed base (RunM.report level message fields >>= next) machine result := by
  refine .bind kept (.report sound (.refl machine)) ?_
  rintro - after afterSound - afterKept ⟨-, store⟩
  exact nextPreserves after afterSound afterKept store

theorem setReturn {value : Value} (sound : machine.Sound allowed) (kept : base.Keeps machine)
    (within : value.Within allowed machine.size) :
    Preserves allowed base (RunM.setReturn value) machine fun _ _ => True :=
  ⟨⟨sound.setReturn within, kept.size_le, kept.old_held⟩, fun _ _ => trivial⟩

theorem wait {deadlines : List Nat} {millis : Nat} (sound : machine.Sound allowed)
    (kept : base.Keeps machine) :
    Preserves allowed base (FlowScript.wait deadlines millis) machine fun _ _ => True := by
  unfold FlowScript.wait
  refine .get ?_
  dsimp only
  split
  · exact ⟨⟨sound.congr rfl rfl, kept.congr rfl rfl⟩, fun _ _ => trivial⟩
  · simp only [Preserves, after_run_bind, after_run_set, after_run_throw]
    exact ⟨⟨sound.congr rfl rfl, kept.congr rfl rfl⟩, fun _ same => by cases same⟩

theorem tryCatch {action : RunM α} {handler : Interruption → RunM α}
    {result : α → Machine → Prop} (kept : base.Keeps machine)
    (preserves : Preserves allowed machine action machine result)
    (handles : ∀ interruption after, after.Sound allowed → machine.Keeps after →
      base.Keeps after → Preserves allowed base (handler interruption) after result) :
    Preserves allowed base (MonadExcept.tryCatch action handler) machine result := by
  simp only [Preserves, after_run_tryCatch]
  refine After.imp preserves ?_
  rintro outcome after ⟨⟨sound, here⟩, holds⟩
  cases outcome with
  | ok value =>
      refine ⟨⟨sound, kept.trans here⟩, fun other same => ?_⟩
      cases same
      exact holds value rfl
  | error interruption => exact handles interruption after sound here (kept.trans here)

end Preserves

end FlowScript
