import FlowScript.Proofs.Value.Dictionary
import FlowScript.Run.Scope
import Mathlib.Tactic.Common

/-!
# The stack of scopes

What the operations on a stack do to its scopes and to its table of results.
-/

set_option autoImplicit false

namespace FlowScript

/-- A scope without the values of its variables. -/
structure Scope.Outline where
  kind : ScopeKind
  slot : Nat
  names : List String
  flow : FlowSignal
  deriving DecidableEq, Repr

def Scope.outline (scope : Scope) : Scope.Outline :=
  ⟨scope.kind, scope.slot, scope.bindings.keys, scope.flow⟩

namespace ScopeStack

def Slotted (stack : ScopeStack) : Prop :=
  ∀ scope ∈ stack.scopes, scope.slot < stack.slots.size

theorem eq_of_scopes {left right : ScopeStack} (scopes : left.scopes = right.scopes)
    (slots : left.slots = right.slots) : left = right := by
  obtain ⟨leftCurrent, leftOuter, leftSlots⟩ := left
  obtain ⟨rightCurrent, rightOuter, rightSlots⟩ := right
  cases scopes
  cases slots
  rfl

theorem length_scopes (stack : ScopeStack) : stack.scopes.length = stack.depth := rfl

theorem depth_pos (stack : ScopeStack) : 0 < stack.depth := Nat.succ_pos _

theorem scopes_push (stack : ScopeStack) (kind : ScopeKind) :
    (stack.push kind).outer = stack.scopes := by
  cases kind <;> rfl

theorem depth_push (stack : ScopeStack) (kind : ScopeKind) :
    (stack.push kind).depth = stack.depth + 1 := by
  cases kind <;> rfl

/-! ## Leaving scopes -/

theorem scopes_dropScopes (count : Nat) (stack : ScopeStack) (below : count < stack.depth) :
    (stack.dropScopes count).scopes = stack.scopes.drop count := by
  induction count generalizing stack with
  | zero => rfl
  | succ count ih =>
      obtain ⟨current, outer, slots⟩ := stack
      cases outer with
      | nil => exact absurd below (by simp [depth])
      | cons parent rest => exact ih ⟨parent, rest, slots⟩ (Nat.lt_of_succ_lt_succ below)

@[simp] theorem slots_dropScopes (count : Nat) (stack : ScopeStack) :
    (stack.dropScopes count).slots = stack.slots := by
  induction count generalizing stack with
  | zero => rfl
  | succ count ih =>
      unfold dropScopes
      split
      · rfl
      · rw [ih]

@[simp] theorem slots_truncate (stack : ScopeStack) (depth : Nat) :
    (stack.truncate depth).slots = stack.slots :=
  slots_dropScopes _ stack

theorem scopes_truncate (stack : ScopeStack) {depth : Nat} (positive : 0 < depth) :
    (stack.truncate depth).scopes = stack.scopes.drop (stack.depth - depth) := by
  have below : stack.depth - depth < stack.depth := Nat.sub_lt stack.depth_pos positive
  unfold truncate
  rw [Nat.max_eq_left positive]
  exact scopes_dropScopes _ stack below

theorem truncate_of_depth_le {stack : ScopeStack} {depth : Nat} (le : stack.depth ≤ depth) :
    stack.truncate depth = stack := by
  have positive : 0 < depth := Nat.lt_of_lt_of_le stack.depth_pos le
  refine eq_of_scopes ?_ (slots_truncate stack depth)
  rw [scopes_truncate stack positive, Nat.sub_eq_zero_of_le le, List.drop_zero]

theorem depth_truncate {stack : ScopeStack} {depth : Nat} (positive : 0 < depth)
    (le : depth ≤ stack.depth) : (stack.truncate depth).depth = depth := by
  rw [← length_scopes, scopes_truncate stack positive, List.length_drop, length_scopes]
  omega

theorem truncate_truncate {stack : ScopeStack} {outer inner : Nat} (positive : 0 < outer)
    (le : outer ≤ inner) (below : inner ≤ stack.depth) :
    (stack.truncate inner).truncate outer = stack.truncate outer := by
  have innerPositive : 0 < inner := Nat.lt_of_lt_of_le positive le
  refine eq_of_scopes ?_ (by simp)
  rw [scopes_truncate _ positive, depth_truncate innerPositive below,
    scopes_truncate _ innerPositive, scopes_truncate _ positive, List.drop_drop]
  congr 1
  omega

theorem pop_signal (stack : ScopeStack) : stack.pop.1 = stack.flow := by
  unfold pop
  split <;> rfl

theorem returnValue?_setReturn {stack : ScopeStack}
    (inBounds : stack.current.slot < stack.slots.size) (value : Value) :
    (stack.setReturn value).returnValue? = some value := by
  simp [returnValue?, setReturn, inBounds]

theorem slot_lt_of_returnValue? {stack : ScopeStack} {value : Value}
    (stored : stack.returnValue? = some value) : stack.current.slot < stack.slots.size := by
  obtain ⟨slot, found, -⟩ := Option.bind_eq_some_iff.mp stored
  exact (Array.getElem?_eq_some_iff.mp found).1

/-! ## Variables -/

theorem declare_eq_ok {stack changed : ScopeStack} {name : String} {value : Value}
    (declared : stack.declare name value = .ok changed) :
    stack.current.bindings.contains name = false ∧
      changed = { stack with
        current := { stack.current with
          bindings := stack.current.bindings.insert name value } } := by
  unfold declare at declared
  split at declared
  · cases declared
  · next missing =>
      cases declared
      exact ⟨by simpa using missing, rfl⟩

theorem rebind_eq_ok {stack changed : ScopeStack} {name : String} {value : Value}
    (rebound : stack.rebind name value = .ok changed) :
    rebindIn? name value stack.scopes = some changed.scopes ∧ changed.slots = stack.slots := by
  unfold rebind at rebound
  split at rebound
  · next current outer inner =>
      cases rebound
      exact ⟨inner, rfl⟩
  · cases rebound

/-! ## Finding a variable by its name -/

/-- Some scopes taken apart at the first one that has a variable of the name, or no scope
that has one. -/
theorem nearest_or_absent (name : String) (scopes : List Scope) :
    (∃ inner scope outer value, scopes = inner ++ scope :: outer ∧
        (∀ other ∈ inner, other.bindings.get? name = none) ∧
        scope.bindings.get? name = some value) ∨
      ∀ scope ∈ scopes, scope.bindings.get? name = none := by
  induction scopes with
  | nil => exact .inr nofun
  | cons scope rest ih =>
      cases found : scope.bindings.get? name with
      | some value => exact .inl ⟨[], scope, rest, value, rfl, nofun, found⟩
      | none =>
          rcases ih with ⟨inner, here, outer, value, rfl, others, present⟩ | absent
          · exact .inl ⟨scope :: inner, here, outer, value, rfl,
              List.forall_mem_cons.mpr ⟨found, others⟩, present⟩
          · exact .inr (List.forall_mem_cons.mpr ⟨found, absent⟩)

section

variable {name : String} {scopes inner outer : List Scope} {scope : Scope} {value current : Value}

theorem lookupIn?_nearest (others : ∀ other ∈ inner, other.bindings.get? name = none)
    (found : scope.bindings.get? name = some value) :
    lookupIn? name (inner ++ scope :: outer) = some value := by
  induction inner with
  | nil => simp [lookupIn?, found]
  | cons other inner ih =>
      obtain ⟨first, rest⟩ := List.forall_mem_cons.mp others
      simp only [List.cons_append, lookupIn?, first, ih rest]

theorem lookupIn?_absent (absent : ∀ scope ∈ scopes, scope.bindings.get? name = none) :
    lookupIn? name scopes = none := by
  induction scopes with
  | nil => rfl
  | cons scope rest ih =>
      obtain ⟨first, others⟩ := List.forall_mem_cons.mp absent
      simp only [lookupIn?, first, ih others]

theorem rebindIn?_nearest (others : ∀ other ∈ inner, other.bindings.get? name = none)
    (found : scope.bindings.get? name = some current) :
    rebindIn? name value (inner ++ scope :: outer) =
      some (inner ++ { scope with bindings := scope.bindings.insert name value } :: outer) := by
  induction inner with
  | nil => simp [rebindIn?, Dictionary.contains, found]
  | cons other inner ih =>
      obtain ⟨first, rest⟩ := List.forall_mem_cons.mp others
      simp [rebindIn?, Dictionary.contains, first, ih rest]

theorem rebindIn?_absent (absent : ∀ scope ∈ scopes, scope.bindings.get? name = none) :
    rebindIn? name value scopes = none := by
  induction scopes with
  | nil => rfl
  | cons scope rest ih =>
      obtain ⟨first, others⟩ := List.forall_mem_cons.mp absent
      simp [rebindIn?, Dictionary.contains, first, ih others]

/-- A search stops at the nearest scope that has the variable. -/
theorem lookupIn?_split (found : lookupIn? name scopes = some value) :
    ∃ inner scope outer, scopes = inner ++ scope :: outer ∧
      (∀ other ∈ inner, other.bindings.get? name = none) ∧
      scope.bindings.get? name = some value := by
  rcases nearest_or_absent name scopes with
    ⟨inner, scope, outer, current, rfl, others, present⟩ | absent
  · rw [lookupIn?_nearest others present] at found
    exact ⟨inner, scope, outer, rfl, others, present.trans found⟩
  · rw [lookupIn?_absent absent] at found
    cases found

/-- The nearest scope that has the variable is changed, and no other one. -/
theorem rebindIn?_split {changed : List Scope}
    (rebound : rebindIn? name value scopes = some changed) :
    ∃ inner scope outer current, scopes = inner ++ scope :: outer ∧
      changed = inner ++ { scope with bindings := scope.bindings.insert name value } :: outer ∧
      (∀ other ∈ inner, other.bindings.get? name = none) ∧
      scope.bindings.get? name = some current := by
  rcases nearest_or_absent name scopes with
    ⟨inner, scope, outer, current, rfl, others, present⟩ | absent
  · rw [rebindIn?_nearest others present] at rebound
    exact ⟨inner, scope, outer, current, rfl, (Option.some.inj rebound).symm, others, present⟩
  · rw [rebindIn?_absent absent] at rebound
    cases rebound

/-- Only values change when a variable is rebound. -/
theorem rebindIn?_outline {changed : List Scope}
    (rebound : rebindIn? name value scopes = some changed) :
    changed.map Scope.outline = scopes.map Scope.outline := by
  obtain ⟨inner, scope, outer, current, rfl, rfl, -, found⟩ := rebindIn?_split rebound
  have present : scope.bindings.contains name := by simp [Dictionary.contains, found]
  simp [Scope.outline, Dictionary.keys_insert_of_contains present]

end

end ScopeStack

end FlowScript
