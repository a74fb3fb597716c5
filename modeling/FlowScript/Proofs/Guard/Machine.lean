import FlowScript.Proofs.Guard.Store
import FlowScript.Proofs.Run.Walk
import FlowScript.Proofs.Storage.Machine
import FlowScript.Proofs.Syntax.Spans

/-!
# Machines under guard

What holds of a store and of the values that are handed around can also hold of the
variables and results of a machine. The arguments of a pending call are lent to it: they
are only copied, once the call is awaited. Along with the values, the guard may ask that
every fault shows at a place of some kind.
-/

set_option autoImplicit false

namespace FlowScript

open RunM

/-- What holds of a store and of the values of a machine, and at which places faults
show. -/
structure Guard extends StoreGuard where
  /-- Holds of the arguments of pending calls. -/
  lent : Value → Prop
  place : Span → Prop
  workflow_iff {definition : Workflow} :
    good (.workflow definition) ↔ ∀ span ∈ definition.spans, place span
  invocation_iff {tag : Nat} {definition : Workflow} {arguments : CallArguments}
    {location : Span} : good (.invocation tag definition arguments location) ↔
      (∀ span ∈ definition.spans, place span) ∧
      (∀ argument ∈ arguments.items, place argument.location ∧ lent argument.value) ∧
      place location
  lent_of_good {value : Value} : good value → lent value
  detach {value : Value} : lent value → Keeping holds value.detach good

namespace Guard

variable (guard : Guard)

/-- All spans of a list are places at which a fault may show. -/
def Places (spans : List Span) : Prop := ∀ ⦃span⦄, span ∈ spans → guard.place span

/-- A failure shows at one of the places. -/
def Blames : Interruption → Prop
  | .failed fault => ∃ span, guard.place span ∧ fault.place = some span
  | .expired _ | .exhausted => True

structure Stack (stack : ScopeStack) : Prop where
  bindings : ∀ value ∈ stack.values, guard.good value
  results : ∀ value, some value ∈ stack.slots → guard.good value

structure Holds (machine : Machine) : Prop where
  scopes : guard.Stack machine.scopes
  store : guard.holds machine.store

/-- From the machine the computation ends on one under guard, and fails at one of the
places if it fails. -/
def Settles {α : Type} (action : RunM α) (machine : Machine) (post : α → Prop) : Prop :=
  After action.run machine fun outcome final => guard.Holds final ∧ Ends guard.Blames post outcome

/-- From every machine under guard the computation ends on another one. -/
def Keeps {α : Type} (action : RunM α) (post : α → Prop) : Prop :=
  Keeping guard.Holds action.run (Ends guard.Blames post)

/-- An argument that a pending call may have. -/
structure Lends (argument : CallArgument) : Prop where
  location : guard.place argument.location
  value : guard.lent argument.value

/-- An argument as it was evaluated. -/
structure Gives (argument : CallArgument) : Prop where
  location : guard.place argument.location
  value : guard.good argument.value

variable {guard}

theorem gives_push {done : CallArguments} (doneGood : ∀ argument ∈ done.items, guard.Gives argument)
    {location : Span} (own : guard.place location) {name : Option String} {value : Value}
    (valueGood : guard.good value) :
    ∀ argument ∈ (done.push name value location).items, guard.Gives argument := by
  intro argument member
  rcases List.mem_append.mp member with old | new
  · exact doneGood argument old
  · rw [List.mem_singleton.mp new]
    exact ⟨own, valueGood⟩

@[simp] theorem places_cons {span : Span} {spans : List Span} :
    guard.Places (span :: spans) ↔ guard.place span ∧ guard.Places spans :=
  List.forall_mem_cons

@[simp] theorem places_append {left right : List Span} :
    guard.Places (left ++ right) ↔ guard.Places left ∧ guard.Places right :=
  List.forall_mem_append

theorem Places.mono {left right : List Span} (places : guard.Places right)
    (subset : left ⊆ right) : guard.Places left :=
  fun _ member => places (subset member)

namespace Stack

variable {stack changed : ScopeStack}

theorem narrow (stackGood : guard.Stack stack) (narrows : stack.Narrows changed) :
    guard.Stack changed where
  bindings value member := stackGood.bindings value (narrows.values.subset member)
  results value member := stackGood.results value (narrows.results value member)

theorem lookup? (stackGood : guard.Stack stack) {name : String} {value : Value}
    (found : stack.lookup? name = some value) : guard.good value :=
  stackGood.bindings value (ScopeStack.lookup?_mem found)

theorem setReturn (stackGood : guard.Stack stack) {value : Value} (valueGood : guard.good value) :
    guard.Stack (stack.setReturn value) where
  bindings := stackGood.bindings
  results other member := by
    rcases Array.mem_or_eq_of_mem_setIfInBounds member with old | new
    · exact stackGood.results other old
    · cases new
      exact valueGood

theorem declare (stackGood : guard.Stack stack) {name : String} {value : Value}
    (valueGood : guard.good value) (declared : stack.declare name value = .ok changed) :
    guard.Stack changed := by
  obtain ⟨-, rfl⟩ := ScopeStack.declare_eq_ok declared
  constructor
  · intro other member
    rw [ScopeStack.values_eq] at member
    rcases List.mem_append.mp member with inner | outer
    · apply Dictionary.insert_all _ valueGood other inner
      intro entry entryMember
      apply stackGood.bindings
      rw [ScopeStack.values_eq]
      exact List.mem_append_left _ entryMember
    · apply stackGood.bindings
      rw [ScopeStack.values_eq]
      exact List.mem_append_right _ outer
  · exact stackGood.results

theorem rebind (stackGood : guard.Stack stack) {name : String} {value : Value}
    (valueGood : guard.good value) (rebound : stack.rebind name value = .ok changed) :
    guard.Stack changed := by
  obtain ⟨inner, slots⟩ := ScopeStack.rebind_eq_ok rebound
  constructor
  · intro other member
    rcases List.mem_cons.mp ((ScopeStack.rebindIn?_values inner).subset member) with new | old
    · subst new
      exact valueGood
    · exact stackGood.bindings other old
  · rw [slots]
    exact stackGood.results

end Stack

theorem Holds.narrow {machine : Machine} (holds : guard.Holds machine) {scopes : ScopeStack}
    (narrows : machine.scopes.Narrows scopes) : guard.Holds { machine with scopes } :=
  ⟨holds.scopes.narrow narrows, holds.store⟩

theorem Keeps.settles {α : Type} {action : RunM α} {post : α → Prop}
    (keeps : guard.Keeps action post)
    {machine : Machine} (start : guard.Holds machine) : guard.Settles action machine post :=
  keeps machine start

namespace Settles

variable {α β : Type} {machine middle final : Machine} {post : α → Prop}

theorem returned {action : RunM α} {value : α} (settles : guard.Settles action machine post)
    (returns : action.Returns machine value final) : guard.Holds final ∧ post value := by
  unfold Settles at settles
  exact settles.of_run returns

theorem of_returns {action : RunM α} {value : α} (returns : action.Returns machine value final)
    (holds : guard.Holds final) (ends : post value) : guard.Settles action machine post := by
  unfold Settles After
  rw [returns]
  exact ⟨holds, ends⟩

theorem of_run {action : RunM α} {other : RunM α}
    (same : action.run.run machine = other.run.run middle)
    (settles : guard.Settles other middle post) : guard.Settles action machine post := by
  unfold Settles After
  rw [same]
  exact settles

theorem bind {first : RunM β} {next : β → RunM α} {between : β → Prop}
    (settles : guard.Settles first machine between)
    (keeps : ∀ value, between value → guard.Keeps (next value) post) :
    guard.Settles (first >>= next) machine post := by
  unfold Settles
  rw [after_run_bind]
  refine After.imp settles fun outcome middle ends => ?_
  cases outcome with
  | ok value => exact keeps value ends.2 middle ends.1
  | error interruption => exact ends

theorem behind {first : RunM β} {next : β → RunM α} {value : β}
    (returns : first.Returns machine value middle)
    (settles : guard.Settles (next value) middle post) :
    guard.Settles (first >>= next) machine post :=
  .of_run (returns.run_bind next) settles

end Settles

namespace Keeps

variable {α β : Type} {post : α → Prop} {location : Span}

theorem pure {value : α} (holds : post value) : guard.Keeps (Pure.pure value) post :=
  .run_pure holds

theorem bind {first : RunM β} {next : β → RunM α} {between : β → Prop}
    (firstLocates : guard.Keeps first between)
    (nextLocates : ∀ value, between value → guard.Keeps (next value) post) :
    guard.Keeps (first >>= next) post :=
  .run_bind firstLocates nextLocates

theorem throw {interruption : Interruption} (shown : guard.Blames interruption) :
    guard.Keeps (MonadExcept.throw interruption) post :=
  .run_throw shown

theorem fail {cause : Cause} (inside : guard.place location) :
    guard.Keeps (RunM.fail cause location) post :=
  .throw ⟨location, inside, rfl⟩

theorem ofExcept {result : Except Cause α} (inside : guard.place location)
    (holds : ∀ value, result = .ok value → post value) :
    guard.Keeps (RunM.ofExcept result location) post := by
  cases result with
  | ok value => exact .pure (holds value rfl)
  | error cause => exact .fail inside

theorem get : guard.Keeps (MonadState.get : RunM Machine) fun _ => True :=
  fun _ start => ⟨start, trivial⟩

theorem getStore : guard.Keeps RunM.getStore guard.holds :=
  fun _ start => ⟨start, start.store⟩

theorem getScopes : guard.Keeps RunM.getScopes guard.Stack :=
  fun _ start => ⟨start, start.scopes⟩

theorem modifyScopes {change : ScopeStack → ScopeStack}
    (changes : ∀ stack : ScopeStack, guard.Stack stack → guard.Stack (change stack)) :
    guard.Keeps (RunM.modifyScopes change) fun _ => True :=
  fun machine start => ⟨⟨changes machine.scopes start.scopes, start.store⟩, trivial⟩

theorem narrowing {change : ScopeStack → ScopeStack}
    (narrows : ∀ stack : ScopeStack, stack.Narrows (change stack)) :
    guard.Keeps (RunM.modifyScopes change) fun _ => True :=
  .modifyScopes fun stack stackGood => stackGood.narrow (narrows stack)

theorem setReturn {value : Value} (valueGood : guard.good value) :
    guard.Keeps (RunM.setReturn value) fun _ => True :=
  .modifyScopes fun _ stackGood => stackGood.setReturn valueGood

theorem onStore {action : StoreM α} (hands : guard.Hands action post) :
    guard.Keeps (RunM.onStore action) post := by
  intro machine start
  obtain ⟨all, holds⟩ := hands machine.store start.store
  exact ⟨⟨start.scopes, all⟩, holds⟩

theorem onStoreAt {action : StoreExceptM α} (inside : guard.place location)
    (hands : guard.HandsAny action post) :
    guard.Keeps (RunM.onStoreAt location action) post := by
  apply Keeps.bind (.onStore hands)
  intro result ends
  apply Keeps.ofExcept inside
  intro value same
  subst same
  exact ends

theorem onScopesAt {change : ScopeStack → Except Cause ScopeStack} (inside : guard.place location)
    (changes : ∀ stack changed : ScopeStack, guard.Stack stack → change stack = .ok changed →
      guard.Stack changed) : guard.Keeps (RunM.onScopesAt location change) fun _ => True := by
  apply Keeps.bind .getScopes
  intro stack stackGood
  apply Keeps.bind (.ofExcept inside fun changed same => changes stack changed stackGood same)
  intro changed changedGood
  exact .modifyScopes fun _ _ => changedGood

theorem declare {name : String} {value : Value} (inside : guard.place location)
    (valueGood : guard.good value) :
    guard.Keeps (RunM.onScopesAt location (·.declare name value)) fun _ => True :=
  .onScopesAt inside fun _ _ stackGood => stackGood.declare valueGood

theorem report (level : LogLevel) (message : String) (fields : List (String × LogValue)) :
    guard.Keeps (RunM.report level message fields) fun _ => True :=
  fun _ start => ⟨⟨start.scopes, start.store⟩, trivial⟩

theorem reportAll (events : List LogEvent) :
    guard.Keeps (RunM.reportAll events) fun _ => True :=
  fun _ start => ⟨⟨start.scopes, start.store⟩, trivial⟩

theorem recordRequest (service : Service) (request : JsonObject) :
    guard.Keeps (RunM.recordRequest service request) fun _ => True :=
  fun _ start => ⟨⟨start.scopes, start.store⟩, trivial⟩

theorem wait (deadlines : List Nat) (millis : Nat) :
    guard.Keeps (FlowScript.wait deadlines millis) fun _ => True := by
  intro machine start
  unfold After
  rw [run_wait]
  split <;> exact ⟨⟨start.scopes, start.store⟩, trivial⟩

theorem withTimeout {context : Context} {timeout : Duration} {action : Context → RunM α}
    (keeps : ∀ inner, guard.Keeps (action inner) post) :
    guard.Keeps (FlowScript.withTimeout context timeout action) fun result =>
      ∀ value, result = some value → post value := by
  intro machine start
  have inside := keeps (context.awaiting machine.now timeout) machine start
  unfold After at inside ⊢
  rw [run_withTimeout]
  cases ran : (action (context.awaiting machine.now timeout)).run.run machine with
  | mk outcome final =>
      rw [ran] at inside
      cases outcome with
      | ok value =>
          refine ⟨inside.1, fun other same => ?_⟩
          cases same
          exact inside.2
      | error interruption =>
          dsimp only
          split
          · exact ⟨inside.1, nofun⟩
          · exact inside

end Keeps

end Guard

end FlowScript
