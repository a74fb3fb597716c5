import FlowScript.Proofs.After
import FlowScript.Proofs.Scope.Stack
import FlowScript.Value.Conversion

/-!
# Variables and the kinds of their values

A variable is known by the level of its scope, counted from the outermost one, and
by its name. Its kind is not stored anywhere. It shows in the value alone, and what
is assigned has the kind of the former value or is an error.
-/

set_option autoImplicit false

namespace FlowScript

/-! ## Kinds of values -/

namespace Value

/-- The value may take the place of the other one in a variable. -/
def Follows (before after : Value) : Prop :=
  after.kind = before.kind ∨ after.isError

theorem kind_eq_error_iff (value : Value) : value.kind = .error ↔ value.isError := by
  cases value <;> simp [kind, isError]

theorem Follows.refl (value : Value) : value.Follows value := .inl rfl

theorem Follows.trans {first second third : Value} (left : first.Follows second)
    (right : second.Follows third) : first.Follows third := by
  rcases right with same | error
  · rcases left with before | error
    · exact .inl (same.trans before)
    · exact .inr (third.kind_eq_error_iff.mp (same.trans (second.kind_eq_error_iff.mpr error)))
  · exact .inr error

/-- An error is followed by errors only. -/
theorem Follows.isError {before after : Value} (follows : before.Follows after)
    (error : before.isError) : after.isError := by
  rcases follows with same | later
  · exact after.kind_eq_error_iff.mp (same.trans (before.kind_eq_error_iff.mpr error))
  · exact later

theorem kind_detachTo (depth : Nat) (value : Value) (store : Store) :
    After (value.detachTo depth) store fun copy _ => copy.kind = value.kind := by
  cases depth with
  | zero => rfl
  | succ depth =>
      cases value with
      | stored kind address =>
          unfold detachTo
          simp only [after_bind, after_get]
          split
          · exact rfl
          · exact rfl
      | void | error | member | builtin | workflow | invocation => rfl

theorem kind_detach (value : Value) (store : Store) :
    After value.detach store fun copy _ => copy.kind = value.kind :=
  kind_detachTo _ value store

/-- A result of the computation, if there is one, has the property. -/
def Answers {α : Type} (post : α → Prop) (action : StoreExceptM α) : Prop :=
  ∀ store, After action.run store fun outcome _ => ∀ value, outcome = .ok value → post value

namespace Answers

variable {α β : Type} {post : β → Prop}

theorem pure {value : β} (holds : post value) : Answers post (Pure.pure value) := by
  intro store other same
  cases same
  exact holds

theorem throw (cause : Cause) : Answers post (MonadExcept.throw cause) := by
  intro store other same
  cases same

theorem bind {first : StoreExceptM α} {next : α → StoreExceptM β}
    (answers : ∀ value, Answers post (next value)) : Answers post (first >>= next) := by
  intro store
  rw [after_run_bind]
  refine (after_eq _).imp fun outcome middle _ => ?_
  cases outcome with
  | ok value => exact answers value middle
  | error cause => exact fun _ same => by cases same

theorem lift {action : StoreM β}
    (answers : ∀ store, After action store fun value _ => post value) :
    Answers post (liftM action) := by
  intro store
  rw [after_run_lift]
  refine (answers store).imp fun value _ holds other same => ?_
  cases same
  exact holds

end Answers

/-- What a variable of a kind starts with. -/
theorem construct_kind (now : Instant) (kind : Kind) (argument : Value) :
    Answers (fun value => value.kind = kind ∨ value.isError) (construct now kind argument) := by
  refine .bind fun store => ?_
  cases kind with
  | stored kind =>
      dsimp only
      split
      · exact .lift fun _ => .inl rfl
      · exact .pure (.inr rfl)
      · exact .bind fun _ => .lift fun _ => .inl rfl
  | error =>
      dsimp only
      split
      · exact .lift fun _ => .inl rfl
      · exact .pure (.inl rfl)
      · split
        · exact .lift fun _ => .inl rfl
        · exact .throw _
  | void =>
      dsimp only
      split
      · exact .pure (.inl rfl)
      · exact .throw _
  | memberFunction | freeFunction | workflow | workflowInvocation => exact .throw _

theorem assignSame_follows (target source : Value) :
    Answers target.Follows (assignSame target source) := by
  unfold assignSame
  split
  · next same =>
      refine .bind fun written => ?_
      split
      · exact .pure (.refl target)
      · exact .lift fun store =>
          (source.kind_detach store).imp fun _ _ copied => .inl (copied.trans same.symm)
  · exact .throw _

theorem assign_follows (target source : Value) :
    Answers target.Follows (target.assign source) := by
  refine .bind fun store => ?_
  dsimp only
  split
  · next error => exact .pure (.inr error)
  · split
    · split
      · split
        · exact .bind fun _ => .pure (.refl _)
        · exact .throw _
      · split
        · exact .bind fun _ => .pure (.refl _)
        · exact .throw _
      · split
        · refine .bind fun copy => ?_
          cases copy with
          | some cell => exact .bind fun _ => .pure (.refl _)
          | none => exact .throw _
        · exact .throw _
      · split
        · refine .bind fun copy => ?_
          cases copy with
          | some cell => exact .bind fun _ => .pure (.refl _)
          | none => exact .throw _
        · exact .throw _
      · exact assignSame_follows _ source
    · exact assignSame_follows target source

end Value

/-! ## Variables of a stack -/

namespace ScopeStack

/-- The bindings of all scopes, from the outermost inwards. -/
def levels (stack : ScopeStack) : List (Dictionary Value) :=
  (stack.scopes.map Scope.bindings).reverse

/-- The value of a variable, by the level of its scope and its name. -/
def valueAt? (stack : ScopeStack) (level : Nat) (name : String) : Option Value :=
  (stack.levels[level]?).bind fun bindings => bindings.get? name

theorem levels_eq (stack : ScopeStack) :
    stack.levels = (stack.outer.map Scope.bindings).reverse ++ [stack.current.bindings] := by
  simp [levels, scopes]

theorem length_levels (stack : ScopeStack) : stack.levels.length = stack.depth := by
  simp [levels, length_scopes]

theorem level_lt {stack : ScopeStack} {level : Nat} {name : String} {value : Value}
    (found : stack.valueAt? level name = some value) : level < stack.depth := by
  obtain ⟨bindings, present, -⟩ := Option.bind_eq_some_iff.mp found
  rw [← length_levels]
  exact (List.getElem?_eq_some_iff.mp present).1

theorem levels_push (stack : ScopeStack) (kind : ScopeKind) :
    (stack.push kind).levels = stack.levels ++ [.empty] := by
  cases kind <;> simp [levels, push, scopes, Scope.fresh]

theorem levels_truncate (stack : ScopeStack) {depth : Nat} (positive : 0 < depth) :
    (stack.truncate depth).levels = stack.levels.take depth := by
  have length := stack.length_levels
  rw [levels, scopes_truncate stack positive, List.map_drop, List.reverse_drop, ← levels,
    List.length_map, length_scopes]
  by_cases le : depth ≤ stack.depth
  · rw [Nat.sub_sub_self le]
  · rw [List.take_of_length_le (by omega), List.take_of_length_le (by omega)]

theorem levels_pop (stack : ScopeStack) (inner : 1 < stack.depth) :
    stack.pop.2.levels = stack.levels.take (stack.depth - 1) := by
  obtain ⟨current, outer, slots⟩ := stack
  cases outer with
  | nil => simp [depth] at inner
  | cons parent rest =>
      have left : (ScopeStack.pop ⟨current, parent :: rest, slots⟩).2.levels =
          (ScopeStack.mk parent rest slots).levels := by
        simp only [pop, levels, scopes, List.map_cons]
        split <;> rfl
      have whole : (ScopeStack.mk current (parent :: rest) slots).levels =
          (ScopeStack.mk parent rest slots).levels ++ [current.bindings] := by
        simp [levels, scopes]
      rw [left, whole, List.take_left']
      exact length_levels _

theorem levels_setFlow (stack : ScopeStack) (flow : FlowSignal) :
    (stack.setFlow flow).levels = stack.levels := by
  simp [levels, setFlow, scopes]

theorem levels_setReturn (stack : ScopeStack) (value : Value) :
    (stack.setReturn value).levels = stack.levels := by
  simp [levels, setReturn, scopes]

theorem valueAt?_of_levels {left right : ScopeStack} {count : Nat}
    (same : left.levels.take count = right.levels.take count) {level : Nat} (below : level < count)
    (name : String) : left.valueAt? level name = right.valueAt? level name := by
  have rows := congrArg (·[level]?) same
  simp only [List.getElem?_take_of_lt below] at rows
  rw [valueAt?, rows, valueAt?]

theorem valueAt?_top {stack : ScopeStack} {level : Nat} (top : level + 1 = stack.depth)
    (name : String) : stack.valueAt? level name = stack.current.bindings.get? name := by
  have place : level = (stack.outer.map Scope.bindings).reverse.length := by
    simpa [depth] using top
  simp [valueAt?, levels_eq, place]

/-- One variable is put in, or gets another value. -/
theorem valueAt?_insert {stack changed : ScopeStack} {front back : List (Dictionary Value)}
    {bindings : Dictionary Value} {name : String} {value : Value}
    (before : stack.levels = front ++ bindings :: back)
    (after : changed.levels = front ++ bindings.insert name value :: back)
    (level : Nat) (other : String) :
    changed.valueAt? level other =
      if level = front.length ∧ other = name then some value else stack.valueAt? level other := by
  simp only [valueAt?, before, after]
  by_cases here : level = front.length
  · subst here
    simp [Dictionary.get?_insert]
  · rw [if_neg fun both => here both.1]
    simp only [List.getElem?_append]
    split
    · rfl
    · rw [List.getElem?_cons, List.getElem?_cons, if_neg (by omega), if_neg (by omega)]

/-- A new variable stands in the innermost scope. -/
theorem valueAt?_declare {stack changed : ScopeStack} {name : String} {value : Value}
    (declared : stack.declare name value = .ok changed) (level : Nat) (other : String) :
    changed.valueAt? level other =
      if level + 1 = stack.depth ∧ other = name then some value
      else stack.valueAt? level other := by
  obtain ⟨-, rfl⟩ := declare_eq_ok declared
  rw [valueAt?_insert stack.levels_eq (levels_eq _)]
  simp [depth]

theorem depth_declare {stack changed : ScopeStack} {name : String} {value : Value}
    (declared : stack.declare name value = .ok changed) : changed.depth = stack.depth := by
  obtain ⟨-, rfl⟩ := declare_eq_ok declared
  rfl

/-- The variable that is found by its name gets another value. -/
theorem valueAt?_rebind {stack changed : ScopeStack} {name : String} {value : Value}
    (rebound : stack.rebind name value = .ok changed) :
    ∃ place current, stack.lookup? name = some current ∧
      stack.valueAt? place name = some current ∧ ∀ level other, changed.valueAt? level other =
        if level = place ∧ other = name then some value else stack.valueAt? level other := by
  obtain ⟨rebound, -⟩ := rebind_eq_ok rebound
  obtain ⟨inner, scope, outer, current, before, after, others, found⟩ := rebindIn?_split rebound
  have looked : stack.lookup? name = some current := by
    rw [lookup?, before, lookupIn?_nearest others found]
  have beforeLevels : stack.levels = (outer.map Scope.bindings).reverse ++
      scope.bindings :: (inner.map Scope.bindings).reverse := by
    simp [levels, before]
  have afterLevels : changed.levels = (outer.map Scope.bindings).reverse ++
      scope.bindings.insert name value :: (inner.map Scope.bindings).reverse := by
    simp [levels, after]
  refine ⟨_, current, looked, ?_, valueAt?_insert beforeLevels afterLevels⟩
  simp [valueAt?, beforeLevels, found]

theorem depth_rebind {stack changed : ScopeStack} {name : String} {value : Value}
    (rebound : stack.rebind name value = .ok changed) : changed.depth = stack.depth := by
  have lengths := congrArg List.length (rebindIn?_outline (rebind_eq_ok rebound).1)
  simpa [length_scopes] using lengths

end ScopeStack

end FlowScript
