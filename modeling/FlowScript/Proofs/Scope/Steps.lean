import FlowScript.Proofs.Variable.Kind
import Mathlib.Tactic.Tauto

/-!
# Steps of a stack

A stack comes from the first one by steps of seven kinds, in any order. A variable has
the value that was written to it last, and a name means the innermost variable that is
open.
-/

set_option autoImplicit false

namespace FlowScript

namespace ScopeStack

/-- What can be done to a stack. -/
inductive Step where
  | push (kind : ScopeKind)
  | pop
  | truncate (depth : Nat)
  | setFlow (flow : FlowSignal)
  | setReturn (value : Value)
  | declare (name : String) (value : Value)
  | rebind (name : String) (value : Value)

/-- The stack after a step. A refused declaration or rebinding changes nothing. -/
def apply (stack : ScopeStack) : Step → ScopeStack
  | .push kind => stack.push kind
  | .pop => stack.pop.2
  | .truncate depth => stack.truncate depth
  | .setFlow flow => stack.setFlow flow
  | .setReturn value => stack.setReturn value
  | .declare name value => (stack.declare name value).toOption.getD stack
  | .rebind name value => (stack.rebind name value).toOption.getD stack

/-- The stack after some steps. -/
def run (stack : ScopeStack) (steps : List Step) : ScopeStack := steps.foldl apply stack

@[simp] theorem run_cons (stack : ScopeStack) (step : Step) (steps : List Step) :
    stack.run (step :: steps) = (stack.apply step).run steps := rfl

/-! ## Finding a variable by its name -/

/-- The variable is open, and no scope further inwards has one of its name. -/
structure Innermost (stack : ScopeStack) (level : Nat) (name : String) : Prop where
  isOpen : (stack.valueAt? level name).isSome
  hidden : ∀ inner, level < inner → stack.valueAt? inner name = none

section

variable {stack changed : ScopeStack} {level other : Nat} {name : String} {value : Value}

theorem Innermost.unique (innermost : stack.Innermost level name)
    (otherInnermost : stack.Innermost other name) : level = other := by
  rcases Nat.lt_trichotomy level other with below | same | above
  · have isOpen := otherInnermost.isOpen
    rw [innermost.hidden other below] at isOpen
    cases isOpen
  · exact same
  · have isOpen := innermost.isOpen
    rw [otherInnermost.hidden level above] at isOpen
    cases isOpen

theorem levels_split {inner outer : List Scope} {scope : Scope}
    (split : stack.scopes = inner ++ scope :: outer) :
    stack.levels = (outer.map Scope.bindings).reverse ++
      scope.bindings :: (inner.map Scope.bindings).reverse := by
  simp [levels, split]

/-- The first scope that has the name has the innermost variable. -/
theorem innermost_of_nearest {inner outer : List Scope} {scope : Scope}
    (split : stack.scopes = inner ++ scope :: outer)
    (others : ∀ other ∈ inner, other.bindings.get? name = none)
    (found : scope.bindings.get? name = some value) :
    stack.Innermost outer.length name ∧ stack.valueAt? outer.length name = some value := by
  have here : stack.valueAt? outer.length name = some value := by
    simp [valueAt?, levels_split split, found]
  refine ⟨⟨Option.isSome_of_eq_some here, fun level above => ?_⟩, here⟩
  obtain ⟨distance, rfl⟩ := Nat.exists_eq_add_of_lt above
  have place : stack.levels[outer.length + distance + 1]? =
      (inner.map Scope.bindings).reverse[distance]? := by
    rw [levels_split split, List.getElem?_append_right (by simp; omega)]
    simp [Nat.add_assoc]
  rw [valueAt?, place]
  cases row : (inner.map Scope.bindings).reverse[distance]? with
  | none => rfl
  | some bindings =>
      have member := List.mem_reverse.mp (List.mem_of_getElem? row)
      obtain ⟨scope, inside, rfl⟩ := List.mem_map.mp member
      exact others scope inside

theorem valueAt?_absent (absent : ∀ scope ∈ stack.scopes, scope.bindings.get? name = none)
    (level : Nat) : stack.valueAt? level name = none := by
  rw [valueAt?]
  cases row : stack.levels[level]? with
  | none => rfl
  | some bindings =>
      have member := List.mem_reverse.mp (List.mem_of_getElem? row)
      obtain ⟨scope, inside, rfl⟩ := List.mem_map.mp member
      exact absent scope inside

theorem valueAt?_initial (level : Nat) (name : String) : initial.valueAt? level name = none := by
  refine valueAt?_absent (fun scope member => ?_) level
  rw [List.mem_singleton.mp member]
  rfl

theorem lookup?_eq_some_iff : stack.lookup? name = some value ↔
    ∃ level, stack.Innermost level name ∧ stack.valueAt? level name = some value := by
  rcases nearest_or_absent name stack.scopes with
    ⟨inner, scope, outer, current, split, others, found⟩ | absent
  · obtain ⟨innermost, here⟩ := innermost_of_nearest split others found
    rw [lookup?, split, lookupIn?_nearest others found]
    constructor
    · rintro ⟨⟩
      exact ⟨_, innermost, here⟩
    · rintro ⟨level, also, value⟩
      rw [← also.unique innermost, value] at here
      exact here.symm
  · rw [lookup?, lookupIn?_absent absent]
    refine iff_of_false (by simp) ?_
    rintro ⟨level, innermost, -⟩
    have isOpen := innermost.isOpen
    rw [valueAt?_absent absent] at isOpen
    cases isOpen

end

/-! ## What a step does to variables -/

/-- The step gives the variable at a level the value. A declaration makes a new variable
in the innermost scope, a rebinding writes to the innermost variable of its name. -/
inductive Writes (stack : ScopeStack) : Step → Nat → String → Value → Prop where
  | declare {level : Nat} {name : String} {value : Value} :
      level + 1 = stack.depth → stack.valueAt? level name = none →
      Writes stack (.declare name value) level name value
  | rebind {level : Nat} {name : String} {value : Value} :
      stack.Innermost level name → Writes stack (.rebind name value) level name value

section

variable {stack changed : ScopeStack} {step : Step} {level place : Nat} {name other : String}
  {value another : Value}

theorem Writes.unique (writes : stack.Writes step level name value)
    (also : stack.Writes step place other another) :
    level = place ∧ name = other ∧ value = another := by
  cases writes with
  | declare top =>
      cases also with
      | declare otherTop => exact ⟨Nat.succ.inj (top.trans otherTop.symm), rfl, rfl⟩
  | rebind innermost =>
      cases also with
      | rebind otherInnermost => exact ⟨innermost.unique otherInnermost, rfl, rfl⟩

theorem apply_declare_ok (declared : stack.declare name value = .ok changed) :
    stack.apply (.declare name value) = changed := by
  simp [apply, declared, Except.toOption]

theorem apply_declare_error {cause : Cause} (refused : stack.declare name value = .error cause) :
    stack.apply (.declare name value) = stack := by
  simp [apply, refused, Except.toOption]

theorem apply_rebind_ok (rebound : stack.rebind name value = .ok changed) :
    stack.apply (.rebind name value) = changed := by
  simp [apply, rebound, Except.toOption]

theorem apply_rebind_error {cause : Cause} (refused : stack.rebind name value = .error cause) :
    stack.apply (.rebind name value) = stack := by
  simp [apply, refused, Except.toOption]

theorem valueAt?_innermost_scope (stack : ScopeStack) (name : String) :
    stack.valueAt? (stack.depth - 1) name = stack.current.bindings.get? name :=
  valueAt?_top (Nat.sub_add_cancel stack.depth_pos) name

/-- A step puts one value in, at the variable it writes to. -/
structure Puts (stack : ScopeStack) (step : Step) (place : Nat) (name : String) (value : Value) :
    Prop where
  writes : stack.Writes step place name value
  levels : ∃ front bindings back, front.length = place ∧
    stack.levels = front ++ bindings :: back ∧
    (stack.apply step).levels = front ++ bindings.insert name value :: back

/-- A step writes to no variable. It opens a scope, or it leaves some scopes or none. -/
structure Spares (stack : ScopeStack) (step : Step) : Prop where
  writes : ∀ level name value, ¬stack.Writes step level name value
  levels : (stack.apply step).levels = stack.levels ++ [.empty] ∨
    (stack.apply step).levels = stack.levels.take (stack.apply step).depth

theorem Puts.depth (puts : stack.Puts step place name value) :
    (stack.apply step).depth = stack.depth := by
  obtain ⟨front, bindings, back, -, before, after⟩ := puts.levels
  rw [← length_levels, ← length_levels, before, after]
  simp

theorem Puts.values (puts : stack.Puts step place name value) (level : Nat) (other : String) :
    (stack.apply step).valueAt? level other =
      if level = place ∧ other = name then some value else stack.valueAt? level other := by
  obtain ⟨front, bindings, back, rfl, before, after⟩ := puts.levels
  exact valueAt?_insert before after level other

theorem Spares.values (spares : stack.Spares step) (below : level < (stack.apply step).depth)
    (name : String) : (stack.apply step).valueAt? level name = stack.valueAt? level name := by
  rcases spares.levels with opened | left
  · rw [valueAt?, opened, valueAt?, List.getElem?_append]
    split
    · rfl
    · next above =>
        -- A new scope has no variables, and before it was opened there was no such level.
        rw [List.getElem?_eq_none (Nat.le_of_not_lt above), List.getElem?_singleton]
        split <;> rfl
  · refine valueAt?_of_levels ?_ below name
    rw [left, List.take_take, Nat.min_self]

theorem declare_puts_or_spares (stack : ScopeStack) (name : String) (value : Value) :
    (∃ place, stack.Puts (.declare name value) place name value) ∨
      stack.Spares (.declare name value) := by
  have top := valueAt?_innermost_scope stack name
  cases declared : stack.declare name value with
  | ok changed =>
      obtain ⟨missing, rfl⟩ := declare_eq_ok declared
      have absent : stack.current.bindings.get? name = none := by
        simpa [Dictionary.contains] using missing
      have depth := Nat.sub_add_cancel stack.depth_pos
      refine .inl ⟨stack.depth - 1, .declare depth (top.trans absent), _, _, [], ?_,
        stack.levels_eq, ?_⟩
      · simp [ScopeStack.depth]
      · rw [apply_declare_ok declared]
        exact levels_eq _
  | error cause =>
      have present : (stack.current.bindings.get? name).isSome := by
        by_contra absent
        simp [ScopeStack.declare, Dictionary.contains, absent] at declared
      refine .inr ⟨fun level other written writes => ?_, .inr ?_⟩
      · cases writes with
        | declare inner absent =>
            rw [← top, ← inner, Nat.add_sub_cancel, absent] at present
            cases present
      · rw [apply_declare_error declared, ← length_levels, List.take_length]

theorem rebind_puts_or_spares (stack : ScopeStack) (name : String) (value : Value) :
    (∃ place, stack.Puts (.rebind name value) place name value) ∨
      stack.Spares (.rebind name value) := by
  rcases nearest_or_absent name stack.scopes with
    ⟨inner, scope, outer, current, split, others, found⟩ | absent
  · obtain ⟨innermost, -⟩ := innermost_of_nearest split others found
    have searched := @rebindIn?_nearest name inner outer scope value current others found
    rw [← split] at searched
    have rebound : ∃ changed, stack.rebind name value = .ok changed ∧ changed.scopes =
        inner ++ { scope with bindings := scope.bindings.insert name value } :: outer := by
      unfold ScopeStack.rebind
      rw [searched]
      cases inner with
      | nil => exact ⟨_, rfl, rfl⟩
      | cons first inner => exact ⟨_, rfl, rfl⟩
    obtain ⟨changed, rebound, after⟩ := rebound
    refine .inl ⟨outer.length, .rebind innermost, _, _, _, ?_, levels_split split, ?_⟩
    · simp
    · rw [apply_rebind_ok rebound]
      exact levels_split after
  · have refused : stack.rebind name value = .error (.undeclared name) := by
      unfold ScopeStack.rebind
      rw [rebindIn?_absent absent]
    refine .inr ⟨fun level other written writes => ?_, .inr ?_⟩
    · cases writes with
      | rebind innermost =>
          have isOpen := innermost.isOpen
          rw [valueAt?_absent absent] at isOpen
          cases isOpen
    · rw [apply_rebind_error refused, ← length_levels, List.take_length]

theorem truncate_eq_max (stack : ScopeStack) (depth : Nat) :
    stack.truncate depth = stack.truncate (max depth 1) := by
  simp [truncate]

/-- Leaving the only scope does nothing. -/
theorem pop_root {stack : ScopeStack} (root : stack.depth ≤ 1) : stack.pop.2 = stack := by
  obtain ⟨current, outer, slots⟩ := stack
  cases outer with
  | nil => rfl
  | cons parent rest => simp [ScopeStack.depth] at root

theorem levels_left {left : ScopeStack} {count : Nat} (same : left.levels = stack.levels.take count) :
    left.levels = stack.levels.take left.depth := by
  rw [← length_levels, same, List.length_take, List.take_eq_take_iff]
  omega

theorem puts_or_spares (stack : ScopeStack) (step : Step) :
    (∃ place name value, stack.Puts step place name value) ∨ stack.Spares step := by
  have kept : ∀ {left : ScopeStack}, left.levels = stack.levels →
      left.levels = stack.levels.take left.depth := fun same =>
    levels_left (same.trans List.take_length.symm)
  cases step with
  | push kind => exact .inr ⟨nofun, .inl (levels_push stack kind)⟩
  | pop =>
      refine .inr ⟨nofun, .inr ?_⟩
      by_cases inner : 1 < stack.depth
      · exact levels_left (levels_pop stack inner)
      · exact kept (congrArg levels (pop_root (Nat.le_of_not_lt inner)))
  | truncate depth =>
      have left := (congrArg levels (stack.truncate_eq_max depth)).trans
        (levels_truncate stack (Nat.le_max_right depth 1))
      exact .inr ⟨nofun, .inr (levels_left left)⟩
  | setFlow flow => exact .inr ⟨nofun, .inr (kept (levels_setFlow stack flow))⟩
  | setReturn value => exact .inr ⟨nofun, .inr (kept (levels_setReturn stack value))⟩
  | declare name value =>
      exact (declare_puts_or_spares stack name value).imp_left fun ⟨place, puts⟩ =>
        ⟨place, name, value, puts⟩
  | rebind name value =>
      exact (rebind_puts_or_spares stack name value).imp_left fun ⟨place, puts⟩ =>
        ⟨place, name, value, puts⟩

/-- A variable has a value after a step if the step wrote it, or if the variable had it
before and the step neither closed its scope nor wrote to it. -/
theorem valueAt?_apply_iff : (stack.apply step).valueAt? level name = some value ↔
    stack.Writes step level name value ∨
      (level < (stack.apply step).depth ∧ ∀ other, ¬stack.Writes step level name other) ∧
        stack.valueAt? level name = some value := by
  rcases puts_or_spares stack step with ⟨place, other, written, puts⟩ | spares
  · rw [puts.values]
    split
    · next here =>
        obtain ⟨rfl, rfl⟩ := here
        constructor
        · rintro ⟨⟩
          exact .inl puts.writes
        · rintro (writes | ⟨⟨-, never⟩, -⟩)
          · rw [(writes.unique puts.writes).2.2]
          · exact absurd puts.writes (never written)
    · next elsewhere =>
        have never : ∀ value, ¬stack.Writes step level name value := fun value writes =>
          have same := writes.unique puts.writes
          elsewhere ⟨same.1, same.2.1⟩
        constructor
        · intro found
          exact .inr ⟨⟨puts.depth ▸ level_lt found, never⟩, found⟩
        · rintro (writes | ⟨-, found⟩)
          · exact absurd writes (never value)
          · exact found
  · constructor
    · intro found
      have below := level_lt found
      rw [spares.values below] at found
      exact .inr ⟨⟨below, spares.writes level name⟩, found⟩
    · rintro (writes | ⟨⟨below, -⟩, found⟩)
      · exact absurd writes (spares.writes level name value)
      · rwa [spares.values below]

/-- A step leaves every variable alone that it does not write to, as long as the scope of
the variable stays open. -/
theorem valueAt?_apply_other (below : level < (stack.apply step).depth)
    (never : ∀ value, ¬stack.Writes step level name value) :
    (stack.apply step).valueAt? level name = stack.valueAt? level name := by
  ext value
  rw [valueAt?_apply_iff]
  constructor
  · rintro (writes | ⟨-, found⟩)
    · exact absurd writes (never value)
    · exact found
  · exact fun found => .inr ⟨⟨below, never⟩, found⟩

end

/-! ## The last write to a variable -/

/-- While the steps are taken, the scope of the variable stays open and nothing is written
to the variable. -/
def Undisturbed (level : Nat) (name : String) : ScopeStack → List Step → Prop
  | _, [] => True
  | stack, step :: rest =>
      (level < (stack.apply step).depth ∧ ∀ value, ¬stack.Writes step level name value) ∧
        Undisturbed level name (stack.apply step) rest

/-- Among the steps there is one that writes the value to the variable, and the steps behind
it leave the variable alone. -/
def LastWritten (stack : ScopeStack) (steps : List Step) (level : Nat) (name : String)
    (value : Value) : Prop :=
  ∃ earlier step later, steps = earlier ++ step :: later ∧
    (stack.run earlier).Writes step level name value ∧
    Undisturbed level name ((stack.run earlier).apply step) later

section

variable {stack : ScopeStack} {step : Step} {steps : List Step} {level : Nat} {name : String}
  {value : Value}

theorem lastWritten_cons_iff : stack.LastWritten (step :: steps) level name value ↔
    stack.Writes step level name value ∧ Undisturbed level name (stack.apply step) steps ∨
      (stack.apply step).LastWritten steps level name value := by
  constructor
  · rintro ⟨earlier, here, later, split, writes, undisturbed⟩
    cases earlier with
    | nil =>
        cases split
        exact .inl ⟨writes, undisturbed⟩
    | cons first earlier =>
        cases split
        exact .inr ⟨earlier, here, later, rfl, writes, undisturbed⟩
  · rintro (⟨writes, undisturbed⟩ | ⟨earlier, here, later, rfl, writes, undisturbed⟩)
    · exact ⟨[], step, steps, rfl, writes, undisturbed⟩
    · exact ⟨step :: earlier, here, later, rfl, writes, undisturbed⟩

theorem valueAt?_run_iff : (stack.run steps).valueAt? level name = some value ↔
    stack.LastWritten steps level name value ∨
      Undisturbed level name stack steps ∧ stack.valueAt? level name = some value := by
  -- By induction on the steps: what the first step writes is there before the others.
  induction steps generalizing stack with
  | nil =>
      refine ⟨fun found => .inr ⟨trivial, found⟩, ?_⟩
      rintro (⟨earlier, step, later, split, -⟩ | ⟨-, found⟩)
      · cases earlier <;> cases split
      · exact found
  | cons step steps ih =>
      rw [run_cons, ih, valueAt?_apply_iff, lastWritten_cons_iff]
      simp only [Undisturbed]
      tauto

end

end ScopeStack

end FlowScript
