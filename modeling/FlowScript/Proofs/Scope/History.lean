import FlowScript.Proofs.Scope.Steps
import FlowScript.Proofs.Value.Equality

/-!
# Histories of a stack

Whatever steps lead to a stack, its scopes nest in one way: outermost there is a
function, every function has a result slot of its own, and what is inside a function
shares its slot. No scope has two variables of one name.
-/

set_option autoImplicit false

namespace FlowScript

namespace ScopeStack

/-! ## How scopes nest -/

/-- The kind of a scope, and the slot for the result of its function. -/
structure Frame where
  kind : ScopeKind
  slot : Nat

def frames (stack : ScopeStack) : List Frame :=
  stack.scopes.map fun scope => ⟨scope.kind, scope.slot⟩

/-- A function has a slot of its own, above all those around it. Any other scope stands
inside a scope with its slot. -/
inductive Nested : List Frame → Prop where
  | bottom {slot : Nat} : Nested [⟨.function, slot⟩]
  | function {slot : Nat} {frames : List Frame} :
      (∀ frame ∈ frames, frame.slot < slot) → Nested frames →
      Nested (⟨.function, slot⟩ :: frames)
  | inside {kind : ScopeKind} {parent : Frame} {frames : List Frame} :
      kind ≠ .function → Nested (parent :: frames) →
      Nested (⟨kind, parent.slot⟩ :: parent :: frames)

namespace Nested

variable {frame parent : Frame} {frames inner outer : List Frame}

theorem tail (nested : Nested (frame :: frames)) (others : frames ≠ []) : Nested frames := by
  cases nested with
  | bottom => exact absurd rfl others
  | function _ rest => exact rest
  | inside _ rest => exact rest

theorem drop (nested : Nested frames) {count : Nat} (below : count < frames.length) :
    Nested (frames.drop count) := by
  induction count generalizing frames with
  | zero => exact nested
  | succ count ih =>
      cases frames with
      | nil => cases below
      | cons frame frames =>
          have left := Nat.lt_of_succ_lt_succ below
          exact ih (nested.tail (List.ne_nil_of_length_pos (Nat.zero_lt_of_lt left))) left

theorem of_append (nested : Nested (inner ++ outer)) (others : outer ≠ []) : Nested outer := by
  have dropped : Nested ((inner ++ outer).drop inner.length) := nested.drop (by
    rw [List.length_append]
    exact Nat.lt_add_of_pos_right (List.length_pos_iff.mpr others))
  rwa [List.drop_left] at dropped

/-- The outermost scope is that of a function. -/
theorem last (nested : Nested frames) : ∃ inner slot, frames = inner ++ [⟨.function, slot⟩] := by
  induction nested with
  | @bottom slot => exact ⟨[], slot, rfl⟩
  | function _ _ ih =>
      obtain ⟨inner, slot, same⟩ := ih
      exact ⟨_ :: inner, slot, by rw [same]; rfl⟩
  | inside _ _ ih =>
      obtain ⟨inner, slot, same⟩ := ih
      exact ⟨_ :: inner, slot, by rw [same]; rfl⟩

theorem slot_parent (nested : Nested (frame :: parent :: frames)) (other : frame.kind ≠ .function) :
    frame.slot = parent.slot := by
  cases nested with
  | function => exact absurd rfl other
  | inside => rfl

theorem slot_below (nested : Nested (frame :: frames)) (function : frame.kind = .function) :
    ∀ other ∈ frames, other.slot < frame.slot := by
  cases nested with
  | bottom => exact nofun
  | function below => exact below
  | inside other => exact absurd function other

/-- Scopes up to the nearest function share its slot. -/
theorem slot_nearest (nested : Nested (inner ++ frame :: outer))
    (others : ∀ other ∈ inner, other.kind ≠ .function) : ∀ other ∈ inner, other.slot = frame.slot := by
  induction inner with
  | nil => exact nofun
  | cons first inner ih =>
      obtain ⟨firstOther, restOthers⟩ := List.forall_mem_cons.mp others
      have rest := ih (nested.tail (by simp)) restOthers
      refine List.forall_mem_cons.mpr ⟨?_, rest⟩
      cases inner with
      | nil => exact nested.slot_parent firstOther
      | cons next inner =>
          exact (nested.slot_parent firstOther).trans (rest next List.mem_cons_self)

end Nested

/-- The form that every stack has. -/
structure Formed (stack : ScopeStack) : Prop where
  nested : Nested stack.frames
  slotted : ∀ frame ∈ stack.frames, frame.slot < stack.slots.size
  once : ∀ bindings ∈ stack.levels, bindings.keys.Nodup

/-! ## What a step does to scopes -/

theorem length_frames (stack : ScopeStack) : stack.frames.length = stack.depth := by
  rw [frames, List.length_map, length_scopes]

theorem push_inside (stack : ScopeStack) {kind : ScopeKind} (other : kind ≠ .function) :
    (stack.push kind).frames = ⟨kind, stack.current.slot⟩ :: stack.frames ∧
      (stack.push kind).slots = stack.slots := by
  cases kind with
  | function => exact absurd rfl other
  | loop | block => exact ⟨rfl, rfl⟩

theorem frames_pop (stack : ScopeStack) (inner : 1 < stack.depth) :
    stack.pop.2.frames = stack.frames.drop 1 := by
  obtain ⟨current, outer, slots⟩ := stack
  cases outer with
  | nil => simp [depth] at inner
  | cons parent rest =>
      simp only [pop, frames, scopes, List.map_cons]
      split <;> rfl

theorem slots_pop (stack : ScopeStack) : stack.pop.2.slots = stack.slots := by
  unfold pop
  split <;> rfl

/-- Only a push brings a scope or a slot in. Any other step leaves some scopes or none. -/
theorem apply_frames (stack : ScopeStack) (step : Step) :
    (∃ kind, step = .push kind) ∨ ∃ count < stack.depth,
      (stack.apply step).frames = stack.frames.drop count ∧
        (stack.apply step).slots.size = stack.slots.size := by
  have kept : ∀ {left : ScopeStack}, left.frames = stack.frames →
      left.slots.size = stack.slots.size → ∃ count < stack.depth,
        left.frames = stack.frames.drop count ∧ left.slots.size = stack.slots.size :=
    fun same size => ⟨0, stack.depth_pos, same, size⟩
  cases step with
  | push kind => exact .inl ⟨kind, rfl⟩
  | pop =>
      refine .inr ?_
      by_cases inner : 1 < stack.depth
      · exact ⟨1, inner, frames_pop stack inner, congrArg Array.size stack.slots_pop⟩
      · rw [show stack.apply .pop = stack from pop_root (Nat.le_of_not_lt inner)]
        exact kept rfl rfl
  | truncate depth =>
      have positive := Nat.le_max_right depth 1
      refine .inr ⟨stack.depth - max depth 1, ?_, ?_, ?_⟩
      · exact Nat.sub_lt stack.depth_pos positive
      · change (stack.truncate depth).frames = _
        rw [truncate_eq_max, frames, scopes_truncate stack positive, List.map_drop, frames]
      · exact congrArg Array.size (slots_truncate stack depth)
  | setFlow flow => exact .inr (kept rfl rfl)
  | setReturn value => exact .inr (kept rfl Array.size_setIfInBounds)
  | declare name value =>
      refine .inr ?_
      cases declared : stack.declare name value with
      | ok changed =>
          rw [apply_declare_ok declared]
          obtain ⟨-, rfl⟩ := declare_eq_ok declared
          exact kept rfl rfl
      | error cause =>
          rw [apply_declare_error declared]
          exact kept rfl rfl
  | rebind name value =>
      refine .inr ?_
      cases rebound : stack.rebind name value with
      | ok changed =>
          obtain ⟨searched, slots⟩ := rebind_eq_ok rebound
          have outlines := congrArg
            (List.map fun outline : Scope.Outline => Frame.mk outline.kind outline.slot)
            (rebindIn?_outline searched)
          rw [apply_rebind_ok rebound]
          exact kept (by simpa [frames, Scope.outline, Function.comp_def] using outlines)
            (congrArg Array.size slots)
      | error cause =>
          rw [apply_rebind_error rebound]
          exact kept rfl rfl

namespace Formed

variable {stack : ScopeStack}

theorem push (formed : stack.Formed) (kind : ScopeKind) :
    Nested (stack.push kind).frames ∧
      ∀ frame ∈ (stack.push kind).frames, frame.slot < (stack.push kind).slots.size := by
  by_cases function : kind = .function
  · subst function
    refine ⟨.function formed.slotted formed.nested, ?_⟩
    refine List.forall_mem_cons.mpr ⟨?_, fun frame member => ?_⟩
    · simp [ScopeStack.push, Scope.fresh]
    · exact Nat.lt_of_lt_of_le (formed.slotted frame member) (by simp [ScopeStack.push])
  · obtain ⟨frames, slots⟩ := push_inside stack function
    have here := formed.slotted ⟨stack.current.kind, stack.current.slot⟩ List.mem_cons_self
    rw [frames, slots]
    exact ⟨.inside function formed.nested, List.forall_mem_cons.mpr ⟨here, formed.slotted⟩⟩

theorem apply_once (formed : stack.Formed) (step : Step) :
    ∀ bindings ∈ (stack.apply step).levels, bindings.keys.Nodup := by
  have once := formed.once
  rcases puts_or_spares stack step with ⟨place, name, value, puts⟩ | spares
  · obtain ⟨front, bindings, back, -, before, after⟩ := puts.levels
    rw [before, List.forall_mem_append, List.forall_mem_cons] at once
    rw [after, List.forall_mem_append, List.forall_mem_cons]
    exact ⟨once.1, Dictionary.nodup_keys_insert once.2.1 name value, once.2.2⟩
  · rcases spares.levels with opened | left
    · rw [opened, List.forall_mem_append, List.forall_mem_singleton]
      exact ⟨once, List.nodup_nil⟩
    · rw [left]
      exact fun bindings member => once bindings (List.mem_of_mem_take member)

/-- Every step keeps the form. -/
theorem apply (formed : stack.Formed) (step : Step) : (stack.apply step).Formed := by
  rcases apply_frames stack step with ⟨kind, rfl⟩ | ⟨count, below, frames, size⟩
  · obtain ⟨nested, slotted⟩ := formed.push kind
    exact ⟨nested, slotted, formed.apply_once (.push kind)⟩
  · refine ⟨?_, ?_, formed.apply_once step⟩
    · rw [frames]
      exact formed.nested.drop (by rwa [length_frames])
    · rw [frames, size]
      exact fun frame member => formed.slotted frame (List.mem_of_mem_drop member)

theorem run (formed : stack.Formed) (steps : List Step) : (stack.run steps).Formed := by
  induction steps generalizing stack with
  | nil => exact formed
  | cons step steps ih => exact ih (formed.apply step)

theorem initial : ScopeStack.initial.Formed where
  nested := .bottom
  slotted := List.forall_mem_singleton.mpr (Nat.zero_lt_one)
  once := List.forall_mem_singleton.mpr List.nodup_nil

end Formed

section

variable {stack : ScopeStack} (formed : stack.Formed) {inner outer : List Scope}
  {scope parent : Scope}

include formed

theorem Formed.nested_split (split : stack.scopes = inner ++ scope :: outer) :
    Nested (inner.map (fun scope => ⟨scope.kind, scope.slot⟩) ++
      ⟨scope.kind, scope.slot⟩ :: outer.map fun scope => ⟨scope.kind, scope.slot⟩) := by
  have nested := formed.nested
  rwa [frames, split, List.map_append, List.map_cons] at nested

theorem Formed.bottom : ∃ inner bottom, stack.scopes = inner ++ [bottom] ∧
    bottom.kind = .function := by
  obtain ⟨inner, slot, last⟩ := formed.nested.last
  obtain ⟨upper, rest, split, -, only⟩ := List.map_eq_append_iff.mp last
  obtain ⟨bottom, rfl, same⟩ := List.map_eq_singleton_iff.mp only
  exact ⟨upper, bottom, split, congrArg Frame.kind same⟩

theorem Formed.names_once : ∀ scope ∈ stack.scopes, scope.bindings.keys.Nodup :=
  fun _ member => formed.once _ (List.mem_reverse.mpr (List.mem_map_of_mem member))

theorem Formed.slot_shared (split : stack.scopes = inner ++ scope :: parent :: outer)
    (other : scope.kind ≠ .function) : scope.slot = parent.slot :=
  ((formed.nested_split split).of_append (List.cons_ne_nil _ _)).slot_parent other

/-- What is inside a function stores results in its slot. -/
theorem Formed.slot_nearest (split : stack.scopes = inner ++ scope :: outer)
    (others : ∀ other ∈ inner, other.kind ≠ .function) :
    ∀ other ∈ inner, other.slot = scope.slot := by
  have shared := (formed.nested_split split).slot_nearest (List.forall_mem_map.mpr others)
  exact List.forall_mem_map.mp shared

/-- The slot of a function belongs to no scope around it. -/
theorem Formed.slot_own (split : stack.scopes = inner ++ scope :: outer)
    (function : scope.kind = .function) : ∀ other ∈ outer, other.slot < scope.slot :=
  fun _ member => ((formed.nested_split split).of_append (List.cons_ne_nil _ _)).slot_below
    function _ (List.mem_map_of_mem member)

end

/-- After any steps there is an outermost scope, which is that of a function. No name stands
twice in a scope, a block or a loop shares the slot of the scope around it, and no two
functions share one. Every variable holds what was written to it last. A name means the
innermost variable, and a step changes no variable but the one it writes to. -/
theorem history_formed (steps : List Step) :
    let stack := initial.run steps
    (∃ inner bottom, stack.scopes = inner ++ [bottom] ∧ bottom.kind = .function) ∧
      (∀ scope ∈ stack.scopes, scope.bindings.keys.Nodup) ∧
      (∀ inner scope parent outer, stack.scopes = inner ++ scope :: parent :: outer →
        scope.kind ≠ .function → scope.slot = parent.slot) ∧
      (∀ inner scope outer, stack.scopes = inner ++ scope :: outer → scope.kind = .function →
        ∀ other ∈ outer, other.kind = .function → scope.slot ≠ other.slot) ∧
      (∀ level name value, stack.valueAt? level name = some value ↔
        initial.LastWritten steps level name value) ∧
      (∀ name value, stack.lookup? name = some value ↔
        ∃ level, stack.Innermost level name ∧ initial.LastWritten steps level name value) ∧
      ∀ step level name, level < (stack.apply step).depth →
        (∀ value, ¬stack.Writes step level name value) →
        (stack.apply step).valueAt? level name = stack.valueAt? level name := by
  have formed := Formed.initial.run steps
  have written : ∀ level name value, (initial.run steps).valueAt? level name = some value ↔
      initial.LastWritten steps level name value := by
    intro level name value
    rw [valueAt?_run_iff]
    refine or_iff_left_of_imp ?_
    rintro ⟨-, found⟩
    rw [valueAt?_initial] at found
    cases found
  refine ⟨formed.bottom, formed.names_once, fun _ _ _ _ split => formed.slot_shared split, ?_,
    written, ?_, fun _ _ _ => valueAt?_apply_other⟩
  · intro inner scope outer split function other member _
    exact Nat.ne_of_gt (formed.slot_own split function other member)
  · intro name value
    simp only [lookup?_eq_some_iff, written]

end ScopeStack

end FlowScript
