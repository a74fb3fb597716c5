import FlowScript.Proofs.Scope.History

/-!
# Unwinding

A signal that is raised in the innermost scope is what every pop answers with, as far out
as the nearest scope that stops it: a function stops a return, a loop or a function stops
a break. Further out nothing of the signal is left.
-/

set_option autoImplicit false

namespace FlowScript

namespace ScopeStack

/-- The stack after so many pops. -/
def popMany : ScopeStack → Nat → ScopeStack
  | stack, 0 => stack
  | stack, count + 1 => stack.pop.2.popMany count

/-- Some scopes with a signal in the innermost one. -/
def raise (signal : FlowSignal) : List Scope → List Scope
  | [] => []
  | scope :: outer => { scope with flow := signal } :: outer

theorem scopes_setReturn (stack : ScopeStack) (value : Value) :
    (stack.setReturn value).scopes = raise .returning stack.scopes := rfl

theorem scopes_setFlow (stack : ScopeStack) (signal : FlowSignal) :
    (stack.setFlow signal).scopes = raise signal stack.scopes := rfl

/-- The scopes of a stack, split at the nearest one of a certain kind. -/
structure Nearest (suits : ScopeKind → Prop) (stack : ScopeStack) (inner : List Scope)
    (target : Scope) (outer : List Scope) : Prop where
  split : stack.scopes = inner ++ target :: outer
  target : suits target.kind
  inner : ∀ scope ∈ inner, ¬suits scope.kind

theorem exists_nearest {suits : ScopeKind → Prop} [DecidablePred suits] {stack : ScopeStack}
    (some : ∃ scope ∈ stack.scopes, suits scope.kind) :
    ∃ inner target outer, stack.Nearest suits inner target outer := by
  obtain ⟨scope, member, suited⟩ := some
  have present : (stack.scopes.find? fun scope => decide (suits scope.kind)).isSome :=
    List.find?_isSome.mpr ⟨scope, member, decide_eq_true suited⟩
  obtain ⟨target, found⟩ := Option.isSome_iff_exists.mp present
  obtain ⟨here, inner, outer, split, others⟩ := List.find?_eq_some_iff_append.mp found
  exact ⟨inner, target, outer, split, of_decide_eq_true here,
    fun scope inside suited => by simpa [suited] using others scope inside⟩

/-! ## One pop -/

theorem stops_returning (scope : Scope) :
    Scope.stopsSignal { scope with flow := .returning } = true ↔ scope.kind = .function :=
  beq_iff_eq

theorem stops_breaking (scope : Scope) :
    Scope.stopsSignal { scope with flow := .breaking } = true ↔ scope.kind ≠ .block :=
  bne_iff_ne

section

variable {stack : ScopeStack} {signal : FlowSignal} {scope parent : Scope} {outer : List Scope}

/-- A scope that does not stop the signal hands it to the scope around it. -/
theorem pop_passes (raised : stack.scopes = raise signal (scope :: parent :: outer))
    (passes : Scope.stopsSignal { scope with flow := signal } = false) :
    stack.pop.2.scopes = raise signal (parent :: outer) := by
  obtain ⟨current, around, slots⟩ := stack
  cases raised
  simp [pop, passes, scopes, raise]

/-- A scope that stops the signal leaves the scope around it as it was. -/
theorem pop_stops (raised : stack.scopes = raise signal (scope :: parent :: outer))
    (stops : Scope.stopsSignal { scope with flow := signal }) :
    stack.pop.2.scopes = parent :: outer := by
  obtain ⟨current, around, slots⟩ := stack
  cases raised
  simp [pop, stops, scopes]

/-- A scope inside the target hands the signal on towards it. -/
theorem pop_raised {target : Scope} {inner : List Scope}
    (raised : stack.scopes = raise signal (scope :: inner ++ target :: outer))
    (passes : Scope.stopsSignal { scope with flow := signal } = false) :
    stack.pop.2.scopes = raise signal (inner ++ target :: outer) := by
  cases inner with
  | nil => exact pop_passes raised passes
  | cons next inner => exact pop_passes raised passes

theorem raise_proceed (calm : scope.flow = .proceed) :
    raise .proceed (scope :: outer) = scope :: outer := by
  rw [raise, ← calm]

theorem flow_raised {others : List Scope} (raised : stack.scopes = raise signal others) :
    stack.flow = signal := by
  cases others with
  | nil => cases raised
  | cons scope outer => exact congrArg Scope.flow (List.cons.inj raised).1

end

/-! ## Many pops -/

section

variable {stack : ScopeStack} {signal : FlowSignal} {target : Scope} {inner outer : List Scope}

theorem popMany_root (root : stack.depth ≤ 1) (count : Nat) : stack.popMany count = stack := by
  induction count with
  | zero => rfl
  | succ count ih => rw [popMany, pop_root root, ih]

theorem slots_popMany (stack : ScopeStack) (count : Nat) :
    (stack.popMany count).slots = stack.slots := by
  induction count generalizing stack with
  | zero => rfl
  | succ count ih => rw [popMany, ih, slots_pop]

/-- However many pops there are, the outermost scope stays. -/
theorem frames_popMany (stack : ScopeStack) (count : Nat) :
    (stack.popMany count).frames = stack.frames.drop (min count (stack.depth - 1)) := by
  induction count generalizing stack with
  | zero => simp [popMany]
  | succ count ih =>
      by_cases inside : 1 < stack.depth
      · have frames := frames_pop stack inside
        have depth := congrArg List.length frames
        rw [List.length_drop, length_frames, length_frames] at depth
        rw [popMany, ih, frames, depth, List.drop_drop]
        congr 1
        omega
      · have root := Nat.le_of_not_lt inside
        have none : stack.depth - 1 = 0 := Nat.sub_eq_zero_of_le root
        rw [popMany_root root, none, Nat.min_zero, List.drop_zero]

theorem drop_min_succ (scope : Scope) (scopes : List Scope) (count limit : Nat) :
    (scope :: scopes).drop (min (count + 1) (limit + 1)) = scopes.drop (min count limit) := by
  rw [Nat.add_min_add_right, List.drop_succ_cons]

/-- Where no signal is raised, pops only leave scopes. -/
theorem popMany_calm (calm : ∀ scope ∈ stack.scopes, scope.flow = .proceed) (count : Nat) :
    (stack.popMany count).scopes = stack.scopes.drop (min count (stack.depth - 1)) := by
  induction count generalizing stack with
  | zero => simp [popMany]
  | succ count ih =>
      obtain ⟨current, around, slots⟩ := stack
      cases around with
      | nil =>
          have root : depth ⟨current, [], slots⟩ ≤ 1 := Nat.le_refl 1
          rw [popMany_root root, show depth ⟨current, [], slots⟩ - 1 = 0 from rfl, Nat.min_zero,
            List.drop_zero]
      | cons parent outer =>
          obtain ⟨here, others⟩ := List.forall_mem_cons.mp calm
          have popped : (pop ⟨current, parent :: outer, slots⟩).2.scopes = parent :: outer :=
            pop_stops (raise_proceed here).symm rfl
          have depth := congrArg List.length popped
          rw [length_scopes, List.length_cons] at depth
          rw [popMany, ih (by rwa [popped]), popped, depth]
          exact (drop_min_succ current _ count _).symm

variable (raised : stack.scopes = raise signal (inner ++ target :: outer))
  (passes : ∀ scope ∈ inner, Scope.stopsSignal { scope with flow := signal } = false)

include raised passes

/-- The signal gets out to the scope that stops it, or to the outermost one. -/
theorem popMany_raised {count : Nat} (within : count ≤ inner.length ∨ outer = []) :
    (stack.popMany count).scopes =
      raise signal ((inner ++ target :: outer).drop (min count (inner.length + outer.length))) := by
  induction inner generalizing stack count with
  | nil =>
      rcases within with none | rfl
      · obtain rfl := Nat.le_zero.mp none
        simpa [popMany] using raised
      · have root : stack.depth ≤ 1 := by
          rw [← length_scopes, raised]
          exact Nat.le_refl 1
        rw [popMany_root root, raised]
        simp
  | cons scope inner ih =>
      cases count with
      | zero => simpa [popMany] using raised
      | succ count =>
          obtain ⟨here, others⟩ := List.forall_mem_cons.mp passes
          have popped := pop_raised raised here
          rw [popMany, ih popped others (within.imp_left Nat.le_of_succ_le_succ), List.length_cons,
            Nat.add_right_comm]
          exact congrArg (raise signal) (drop_min_succ scope _ count _).symm

/-- Behind the scope that stops the signal, all scopes are as they were. -/
theorem popMany_beyond (stops : Scope.stopsSignal { target with flow := signal })
    (calm : ∀ scope ∈ outer, scope.flow = .proceed) {count : Nat} (beyond : inner.length < count)
    (others : outer ≠ []) :
    (stack.popMany count).scopes =
      (inner ++ target :: outer).drop (min count (inner.length + outer.length)) := by
  induction inner generalizing stack count with
  | nil =>
      obtain ⟨fewer, rfl⟩ := Nat.exists_eq_succ_of_ne_zero (Nat.ne_of_gt beyond)
      obtain ⟨parent, outer, rfl⟩ := List.exists_cons_of_ne_nil others
      have popped : stack.pop.2.scopes = parent :: outer := pop_stops raised stops
      have depth := congrArg List.length popped
      rw [length_scopes, List.length_cons] at depth
      rw [popMany, popMany_calm (popped ▸ calm), popped, depth, List.length_nil, Nat.zero_add]
      exact (drop_min_succ target _ fewer _).symm
  | cons scope inner ih =>
      obtain ⟨fewer, rfl⟩ := Nat.exists_eq_succ_of_ne_zero (Nat.ne_zero_of_lt beyond)
      obtain ⟨here, passing⟩ := List.forall_mem_cons.mp passes
      have popped := pop_raised raised here
      rw [popMany, ih popped passing (Nat.lt_of_succ_lt_succ beyond), List.length_cons,
        Nat.add_right_comm]
      exact (drop_min_succ scope _ fewer _).symm

end

/-! ## Returns and breaks -/

section

variable {stack : ScopeStack} {suits : ScopeKind → Prop} {target : Scope}
  {inner outer : List Scope} {value : Value} {count : Nat}

theorem Nearest.outer_depth (nearest : stack.Nearest suits inner target outer) :
    stack.depth - 1 = inner.length + outer.length := by
  rw [← length_scopes, nearest.split]
  simp

/-- What is left further out than the nearest scope. -/
theorem Nearest.outside (nearest : stack.Nearest suits inner target outer)
    (beyond : inner.length < count) (others : outer ≠ []) {scope : Scope}
    (member : scope ∈ stack.scopes.drop (min count (stack.depth - 1))) : scope ∈ outer := by
  have least : inner.length + 1 ≤ min count (stack.depth - 1) := by
    have some := List.length_pos_iff.mpr others
    rw [nearest.outer_depth]
    omega
  obtain ⟨more, same⟩ := Nat.exists_eq_add_of_le least
  rw [same, nearest.split, ← List.drop_drop] at member
  simpa using List.mem_of_mem_drop member

/-- A signal that the scopes further in pass on and the nearest scope stops. -/
theorem Nearest.unwinds (nearest : stack.Nearest suits inner target outer) {signal : FlowSignal}
    (calm : ∀ scope ∈ stack.scopes, scope.flow = .proceed)
    (stops : ∀ scope : Scope,
      Scope.stopsSignal { scope with flow := signal } = true ↔ suits scope.kind)
    {raised : ScopeStack} (start : raised.scopes = raise signal stack.scopes) (count : Nat) :
    (count ≤ inner.length ∨ outer = [] → (raised.popMany count).pop.1 = signal) ∧
      (inner.length < count → outer ≠ [] →
        (raised.popMany count).scopes = stack.scopes.drop (min count (stack.depth - 1)) ∧
          (raised.popMany count).flow = .proceed) := by
  have passes : ∀ scope ∈ inner, Scope.stopsSignal { scope with flow := signal } = false :=
    fun scope member => Bool.eq_false_iff.mpr (mt (stops scope).mp (nearest.inner scope member))
  rw [nearest.split] at start calm
  refine ⟨fun within => ?_, fun beyond others => ?_⟩
  · rw [pop_signal, flow_raised (popMany_raised start passes within)]
  · have left := popMany_beyond start passes ((stops target).mpr nearest.target)
      (fun scope member => calm scope (by simp [member])) beyond others
    refine ⟨by rw [left, nearest.split, nearest.outer_depth], ?_⟩
    have here : (raised.popMany count).current ∈ (raised.popMany count).scopes :=
      List.mem_cons_self
    rw [left] at here
    exact calm _ (List.mem_of_mem_drop here)

/-- A return is stored in the slot of the nearest function. -/
theorem Nearest.current_slot (nearest : stack.Nearest (· = .function) inner target outer)
    (formed : stack.Formed) : stack.current.slot = target.slot := by
  have split := nearest.split
  cases inner with
  | nil => rw [(List.cons.inj split).1]
  | cons scope inner =>
      exact formed.slot_nearest split nearest.inner stack.current
        ((List.cons.inj split).1 ▸ List.mem_cons_self)

theorem Nearest.stored (nearest : stack.Nearest (· = .function) inner target outer)
    (formed : stack.Formed) :
    ((stack.setReturn value).popMany count).slots[target.slot]? = some (some value) := by
  have inBounds := formed.slotted ⟨target.kind, target.slot⟩
    (List.mem_map.mpr ⟨target, by simp [nearest.split], rfl⟩)
  rw [slots_popMany, setReturn, nearest.current_slot formed]
  exact Array.getElem?_setIfInBounds_self_of_lt inBounds

/-- No function around the nearest one has its slot. -/
theorem Nearest.kept (nearest : stack.Nearest (· = .function) inner target outer)
    (formed : stack.Formed) {scope : Scope} (member : scope ∈ outer) :
    ((stack.setReturn value).popMany count).slots[scope.slot]? = stack.slots[scope.slot]? := by
  have apart := formed.slot_own nearest.split nearest.target scope member
  rw [slots_popMany, setReturn, nearest.current_slot formed]
  exact Array.getElem?_setIfInBounds_ne (Nat.ne_of_gt apart)

end

/-- Where no signal is raised, a return goes out to the nearest function, which holds its
value, and a break to the nearest loop or function: every pop up to that one answers with
the signal. All scopes further out are as they were, and the outermost scope is never left. -/
theorem signals_unwind (steps : List Step)
    (calm : ∀ scope ∈ (initial.run steps).scopes, scope.flow = .proceed) (value : Value) :
    let stack := initial.run steps
    (∃ inner function outer, stack.Nearest (· = .function) inner function outer) ∧
      (∃ inner target outer, stack.Nearest (· ≠ .block) inner target outer) ∧
      (∀ inner function outer, stack.Nearest (· = .function) inner function outer → ∀ count,
        let left := (stack.setReturn value).popMany count
        (count ≤ inner.length ∨ outer = [] →
          left.pop.1 = .returning ∧ left.slots[function.slot]? = some (some value)) ∧
        (inner.length < count → outer ≠ [] →
          left.scopes = stack.scopes.drop (min count (stack.depth - 1)) ∧ left.flow = .proceed ∧
            ∀ scope ∈ left.scopes, left.slots[scope.slot]? = stack.slots[scope.slot]?)) ∧
      (∀ inner target outer, stack.Nearest (· ≠ .block) inner target outer → ∀ count,
        let left := (stack.setFlow .breaking).popMany count
        (count ≤ inner.length ∨ outer = [] → left.pop.1 = .breaking) ∧
        (inner.length < count → outer ≠ [] →
          left.scopes = stack.scopes.drop (min count (stack.depth - 1)) ∧ left.flow = .proceed)) ∧
      ∀ count,
        ((stack.setReturn value).popMany count).frames =
            stack.frames.drop (min count (stack.depth - 1)) ∧
          ((stack.setFlow .breaking).popMany count).frames =
            stack.frames.drop (min count (stack.depth - 1)) := by
  have formed := Formed.initial.run steps
  obtain ⟨inside, bottom, split, function⟩ := formed.bottom
  have outermost : bottom ∈ (initial.run steps).scopes := by simp [split]
  refine ⟨exists_nearest ⟨bottom, outermost, function⟩,
    exists_nearest ⟨bottom, outermost, by simp [function]⟩, ?_, ?_,
    fun count => ⟨frames_popMany _ count, frames_popMany _ count⟩⟩
  · intro inner function outer nearest count
    obtain ⟨within, beyond⟩ := nearest.unwinds calm stops_returning (scopes_setReturn _ value) count
    refine ⟨fun near => ⟨within near, nearest.stored formed⟩, fun far others => ?_⟩
    obtain ⟨scopes, flow⟩ := beyond far others
    refine ⟨scopes, flow, fun scope member => nearest.kept formed ?_⟩
    exact nearest.outside far others (scopes ▸ member)
  · intro inner target outer nearest count
    exact nearest.unwinds calm stops_breaking (scopes_setFlow _ .breaking) count

/-- A block in a loop in a function: the return gets out of the loop, the break does not. -/
theorem blockInLoop_unwinds :
    let stack := initial.run [.push .function, .push .loop, .push .block]
    (∀ scope ∈ stack.scopes, scope.flow = .proceed) ∧
      ((stack.setReturn .void).popMany 2).pop.1 = .returning ∧
      ((stack.setReturn .void).popMany 3).flow = .proceed ∧
      ((stack.setFlow .breaking).popMany 1).pop.1 = .breaking ∧
      ((stack.setFlow .breaking).popMany 2).flow = .proceed := by
  have calm : ∀ scope ∈ (initial.run [.push .function, .push .loop, .push .block]).scopes,
      scope.flow = .proceed := by decide
  obtain ⟨-, -, returns, breaks, -⟩ := signals_unwind _ calm .void
  have function : Nearest (· = .function) (initial.run [.push .function, .push .loop, .push .block])
      [.fresh .block 1, .fresh .loop 1] (.fresh .function 1) [.fresh .function 0] :=
    ⟨rfl, rfl, by decide⟩
  have loop : Nearest (· ≠ .block) (initial.run [.push .function, .push .loop, .push .block])
      [.fresh .block 1] (.fresh .loop 1) [.fresh .function 1, .fresh .function 0] :=
    ⟨rfl, by decide, by decide⟩
  exact ⟨calm, ((returns _ _ _ function 2).1 (.inl (Nat.le_refl 2))).1,
    ((returns _ _ _ function 3).2 (by decide) (List.cons_ne_nil _ _)).2.1,
    (breaks _ _ _ loop 1).1 (.inl (Nat.le_refl 1)),
    ((breaks _ _ _ loop 2).2 (by decide) (List.cons_ne_nil _ _)).2⟩

end ScopeStack

end FlowScript
