import FlowScript.Proofs.Run.Lockstep
import FlowScript.Proofs.Scope.Evaluation
import FlowScript.Proofs.Variable.Kind

/-!
# Variables stay while their scopes are open

Nothing that is evaluated leaves the scopes it finds. Their variables stay, and
each has a value of its former kind from then on, or an error.
-/

set_option autoImplicit false

namespace FlowScript

open RunM

/-! ## From one machine to a later one -/

/-- From the first machine to the second, so many of the outermost scopes were not
left. -/
structure Machine.LeadsTo (levels : Nat) (before after : Machine) : Prop where
  grows : before ≤ after
  levels_le : levels ≤ after.scopes.depth
  follows : ∀ level < levels, ∀ name value, before.scopes.valueAt? level name = some value →
    ∃ later, after.scopes.valueAt? level name = some later ∧ value.Follows later

namespace Machine.LeadsTo

variable {levels : Nat} {before middle after : Machine}

theorem trans (first : before.LeadsTo levels middle) (second : middle.LeadsTo levels after) :
    before.LeadsTo levels after where
  grows := le_trans first.grows second.grows
  levels_le := second.levels_le
  follows level below name value found := by
    obtain ⟨between, betweenFound, firstFollows⟩ := first.follows level below name value found
    obtain ⟨later, laterFound, follows⟩ := second.follows level below name between betweenFound
    exact ⟨later, laterFound, firstFollows.trans follows⟩

theorem mono {fewer : Nat} (leads : before.LeadsTo levels after) (le : fewer ≤ levels) :
    before.LeadsTo fewer after where
  grows := leads.grows
  levels_le := Nat.le_trans le leads.levels_le
  follows level below := leads.follows level (Nat.lt_of_lt_of_le below le)

theorem of_levels (grows : before ≤ after) (levels_le : levels ≤ after.scopes.depth)
    (same : after.scopes.levels.take levels = before.scopes.levels.take levels) :
    before.LeadsTo levels after where
  grows := grows
  levels_le := levels_le
  follows level below name value found := by
    rw [← ScopeStack.valueAt?_of_levels same below] at found
    exact ⟨value, found, .refl value⟩

theorem of_scopes (grows : before ≤ after) (levels_le : levels ≤ before.scopes.depth)
    (same : after.scopes = before.scopes) : before.LeadsTo levels after :=
  .of_levels grows (same ▸ levels_le) (by rw [same])

theorem refl (levels_le : levels ≤ before.scopes.depth) : before.LeadsTo levels before :=
  .of_scopes (le_refl _) levels_le rfl

theorem entering (levels_le : levels ≤ before.scopes.depth) (kind : ScopeKind) :
    before.LeadsTo levels (before.entering kind) := by
  have deeper : (before.entering kind).scopes.depth = before.scopes.depth + 1 :=
    before.scopes.depth_push kind
  refine .of_levels (before.le_withScopes _) (by omega) ?_
  change ((before.scopes.push kind).levels).take levels = _
  have inside : levels ≤ before.scopes.levels.length :=
    Nat.le_trans levels_le (Nat.le_of_eq before.scopes.length_levels.symm)
  rw [ScopeStack.levels_push, List.take_append_of_le_length inside]

theorem leaving {depth : Nat} (positive : 0 < depth) (le : levels ≤ depth)
    (levels_le : levels ≤ before.scopes.depth) : before.LeadsTo levels (before.leaving depth) := by
  have rows : (before.leaving depth).scopes.levels = before.scopes.levels.take depth :=
    before.scopes.levels_truncate positive
  have remains : (before.leaving depth).scopes.depth = min depth before.scopes.depth := by
    rw [← ScopeStack.length_levels, rows, List.length_take, ScopeStack.length_levels]
  refine .of_levels (before.le_withScopes _) (by omega) ?_
  rw [rows, List.take_take, Nat.min_eq_left le]

theorem popping (inner : levels < before.scopes.depth) (outermost : 1 < before.scopes.depth) :
    before.LeadsTo levels { before with scopes := before.scopes.pop.2 } := by
  have rows := before.scopes.levels_pop outermost
  have remains : before.scopes.pop.2.depth = before.scopes.depth - 1 := by
    rw [← ScopeStack.length_levels, rows, List.length_take, ScopeStack.length_levels]
    omega
  refine .of_levels (before.le_withScopes _) (by simp only [remains]; omega) ?_
  rw [rows, List.take_take, Nat.min_eq_left (by omega)]

end Machine.LeadsTo

/-! ## Steady computations -/

/-- However it ends, the computation has left none of the scopes it started in. -/
def Steady {α : Type} (action : RunM α) : Prop :=
  ∀ machine, After action.run machine fun _ final => machine.LeadsTo machine.scopes.depth final

namespace Steady

variable {α β : Type}

theorem returned {action : RunM α} {machine final : Machine} {value : α} {levels : Nat}
    (steady : Steady action) (returns : action.Returns machine value final)
    (levels_le : levels ≤ machine.scopes.depth) : machine.LeadsTo levels final := by
  have ends := steady machine
  exact (ends.of_run returns).mono levels_le

theorem of_plain {action : RunM α} (plain : Plain action) : Steady action :=
  fun machine => .of_scopes (plain.grows machine) (Nat.le_refl _) (plain.quiet machine)

theorem bind {first : RunM α} {next : α → RunM β} (firstSteady : Steady first)
    (nextSteady : ∀ value, Steady (next value)) : Steady (first >>= next) := by
  intro machine
  rw [after_run_bind]
  refine (firstSteady machine).imp fun outcome middle before => ?_
  cases outcome with
  | ok value =>
      refine (nextSteady value middle).imp fun _ final after => ?_
      exact before.trans (after.mono before.levels_le)
  | error => exact before

theorem composes : Sequences fun {_} action _ => Steady action :=
  .of_plain (fun plain => of_plain plain) fun first next => bind first next

theorem throw (interruption : Interruption) : Steady (MonadExcept.throw interruption : RunM α) :=
  fun _ => .refl (Nat.le_refl _)

theorem declare (location : Span) (name : String) (value : Value) :
    Steady (onScopesAt location (·.declare name value)) := by
  intro machine
  unfold After
  rw [run_onScopesAt]
  cases declared : machine.scopes.declare name value with
  | error cause => exact .refl (Nat.le_refl _)
  | ok changed =>
      refine ⟨machine.le_withScopes _, Nat.le_of_eq (ScopeStack.depth_declare declared).symm, ?_⟩
      intro level below other old found
      refine ⟨old, ?_, .refl old⟩
      rw [ScopeStack.valueAt?_declare declared, if_neg, found]
      rintro ⟨top, rfl⟩
      -- A name that is taken in the innermost scope cannot be declared.
      have free := (ScopeStack.declare_eq_ok declared).1
      rw [ScopeStack.valueAt?_top top] at found
      simp [Dictionary.contains, found] at free

theorem rebind {machine : Machine} {name : String} {current value : Value}
    {changed : ScopeStack} (rebound : machine.scopes.rebind name value = .ok changed)
    (looked : machine.scopes.lookup? name = some current) (follows : current.Follows value) :
    machine.LeadsTo machine.scopes.depth { machine with scopes := changed } := by
  obtain ⟨place, old, found, present, values⟩ := ScopeStack.valueAt?_rebind rebound
  cases looked.symm.trans found
  refine ⟨machine.le_withScopes _, Nat.le_of_eq (ScopeStack.depth_rebind rebound).symm, ?_⟩
  intro level _ other before beforeFound
  by_cases here : level = place ∧ other = name
  · obtain ⟨rfl, rfl⟩ := here
    cases present.symm.trans beforeFound
    exact ⟨value, by rw [values, if_pos ⟨rfl, rfl⟩], follows⟩
  · exact ⟨before, by rw [values, if_neg here, beforeFound], .refl before⟩

theorem assignVariable (name : Identifier) (source : Value) (span : Span) :
    Steady (FlowScript.assignVariable name source span) := by
  intro machine
  unfold FlowScript.assignVariable
  simp only [after_run_bind]
  cases looked : machine.scopes.lookup? name.name with
  | none =>
      have fails : (resolve name []).run.run machine =
          (.error (.failed ⟨.undeclared name.name, some name.span⟩), machine) := by
        rw [run_resolve, looked]
        rfl
      unfold After
      rw [fails]
      exact .refl (Nat.le_refl _)
  | some current =>
      have resolves : (resolve name []).run.run machine = (.ok current, machine) := by
        rw [run_resolve, looked]
        rfl
      have answers := current.assign_follows source machine.store
      have grown := (StoreStep.assign current source).grows machine.store
      unfold After at answers grown ⊢
      rw [resolves]
      dsimp only
      rw [run_onStoreAt]
      cases assigned : (current.assign source).run.run machine.store with
      | mk outcome store =>
          rw [assigned] at answers grown
          have written : machine.LeadsTo machine.scopes.depth { machine with store } :=
            .of_scopes (Machine.le_withStore grown) (Nat.le_refl _) rfl
          cases outcome with
          | error cause => exact written
          | ok value =>
              dsimp only
              rw [run_onScopesAt]
              cases rebound : machine.scopes.rebind name.name value with
              | error cause => simpa only using written
              | ok changed =>
                  have stored : ({ machine with store }.scopes).rebind name.name value =
                    .ok changed := rebound
                  simpa only using written.trans (rebind stored looked (answers value rfl))

end Steady

/-! ## Scopes of their own -/

section

variable {execute : Statement → RunM Unit} (executes : ∀ statement, Steady (execute statement))

include executes

/-- The scope of a block is left when its statements end or fail. -/
theorem leads_runBlock (kind : ScopeKind) (block : Block) (machine : Machine) :
    ((executeAll execute block.statements).run.run (machine.entering kind)).2.LeadsTo
      machine.scopes.depth ((runBlock execute kind block).run.run machine).2 := by
  have inside := Steady.composes.statements executes block.statements (machine.entering kind)
  have deeper : (machine.entering kind).scopes.depth = machine.scopes.depth + 1 :=
    machine.scopes.depth_push kind
  unfold After at inside
  rw [run_runBlock]
  cases ran : (executeAll execute block.statements).run.run (machine.entering kind) with
  | mk outcome final =>
      rw [ran, deeper] at inside
      have levels : machine.scopes.depth + 1 ≤ final.scopes.depth := inside.levels_le
      cases outcome with
      | ok => exact .popping levels (Nat.lt_of_le_of_lt machine.scopes.depth_pos levels)
      | error interruption =>
          dsimp only
          split
          · exact .leaving machine.scopes.depth_pos (Nat.le_refl _) (Nat.le_of_succ_le levels)
          · exact .refl (Nat.le_of_succ_le levels)

theorem Steady.runBlock (kind : ScopeKind) (block : Block) :
    Steady (FlowScript.runBlock execute kind block) := by
  intro machine
  have entered := Machine.LeadsTo.entering (Nat.le_refl machine.scopes.depth) kind
  have inside := Steady.composes.statements executes block.statements (machine.entering kind)
  exact (entered.trans (inside.mono entered.levels_le)).trans
    (leads_runBlock executes kind block machine)

theorem Steady.callBody (definition : Workflow) (arguments : CallArguments) (called : Span) :
    Steady (FlowScript.callBody execute definition arguments called) :=
  .bind (Steady.composes.bindParameters .declare definition arguments called) fun _ =>
    .bind (Steady.composes.statements executes definition.body.statements) fun _ =>
      .bind Steady.composes.getScopes fun _ => Steady.composes.checkResult _ _ _

/-- The scope of a call is left when its body ends or fails. -/
theorem leads_runCall (definition : Workflow) (arguments : CallArguments) (called : Span)
    (machine : Machine) :
    ((callBody execute definition arguments called).run.run (machine.entering .function)).2.LeadsTo
      machine.scopes.depth ((runCall execute definition arguments called).run.run machine).2 := by
  have inside := Steady.callBody executes definition arguments called (machine.entering .function)
  have deeper : (machine.entering .function).scopes.depth = machine.scopes.depth + 1 :=
    machine.scopes.depth_push .function
  unfold After at inside
  rw [run_runCall]
  cases ran : (callBody execute definition arguments called).run.run
      (machine.entering .function) with
  | mk outcome final =>
      rw [ran, deeper] at inside
      have levels : machine.scopes.depth ≤ final.scopes.depth :=
        Nat.le_of_succ_le inside.levels_le
      have left : final.LeadsTo machine.scopes.depth (final.leaving machine.scopes.depth) :=
        .leaving machine.scopes.depth_pos (Nat.le_refl _) levels
      cases outcome with
      | ok => exact left
      | error interruption =>
          dsimp only
          split
          · exact left
          · exact .refl levels

theorem Steady.invoke (definition : Workflow) (arguments : CallArguments) (called : Span) :
    Steady (FlowScript.invoke execute definition arguments called) := by
  rw [invoke_eq]
  refine .bind (Steady.composes.report _ _ _) fun _ machine => ?_
  have entered := Machine.LeadsTo.entering (Nat.le_refl machine.scopes.depth) .function
  have inside := Steady.callBody executes definition arguments called (machine.entering .function)
  exact (entered.trans (inside.mono entered.levels_le)).trans
    (leads_runCall executes definition arguments called machine)

end

section

variable {execute : Context → Statement → RunM Unit}
  (executes : ∀ context statement, Steady (execute context statement)) (context : Context)
  (definition : Workflow) (arguments : CallArguments) (called : Span) (timeout : Duration)
  (location : Span)

include executes

/-- The scopes of an abandoned call are left by the await. -/
theorem leads_awaitInvocation (machine : Machine) :
    ((invoke (execute (context.awaiting machine.now timeout)) definition arguments
      called).run.run machine).2.LeadsTo machine.scopes.depth
      ((awaitInvocation execute context definition arguments called timeout
        location).run.run machine).2 := by
  have inside := Steady.invoke (executes (context.awaiting machine.now timeout)) definition
    arguments called machine
  have answers : Steady (answerTimeout definition location) :=
    .bind (Steady.composes.report _ _ _) fun _ => Steady.composes.onStore (.error _ _)
  unfold After at inside
  rw [run_awaitInvocation]
  cases ran : (invoke (execute (context.awaiting machine.now timeout)) definition arguments
      called).run.run machine with
  | mk outcome final =>
      rw [ran] at inside
      cases outcome with
      | ok => exact .refl inside.levels_le
      | error interruption =>
          dsimp only
          split
          · have left : final.LeadsTo machine.scopes.depth (final.leaving machine.scopes.depth) :=
              .leaving machine.scopes.depth_pos (Nat.le_refl _) inside.levels_le
            exact left.trans ((answers _).mono left.levels_le)
          · exact .refl inside.levels_le

theorem Steady.awaitInvocation :
    Steady (FlowScript.awaitInvocation execute context definition arguments called timeout
      location) := fun machine =>
  (Steady.invoke (executes (context.awaiting machine.now timeout)) definition arguments called
    machine).trans
    (leads_awaitInvocation executes context definition arguments called timeout location machine)

end

namespace Steady

theorem modifyScopes {change : ScopeStack → ScopeStack}
    (same : ∀ stack, (change stack).levels = stack.levels) : Steady (RunM.modifyScopes change) := by
  intro machine
  have depth : (change machine.scopes).depth = machine.scopes.depth := by
    rw [← ScopeStack.length_levels, same, ScopeStack.length_levels]
  exact .of_levels (machine.le_withScopes _) (Nat.le_of_eq depth.symm)
    (congrArg (List.take _) (same machine.scopes))

theorem lockstep : Lockstep Eq fun {_} action _ => Steady action where
  toComposes := composes.toComposes
  deadlines pair := ⟨_, pair.symm⟩
  exhausted := throw _
  setReturn value := modifyScopes (·.levels_setReturn value)
  breaks := modifyScopes (·.levels_setFlow .breaking)
  declare := declare
  assignVariable := assignVariable
  wait millis _ machine :=
    .of_scopes (growing.wait _ millis machine) (Nat.le_refl _) (Quiet.wait _ millis machine)
  runBlock kind block executes := runBlock executes kind block
  awaitInvocation definition arguments called timeout location executes _ :=
    awaitInvocation (fun _ => executes rfl) _ definition arguments called timeout location
  awaitHost kind request timeout location _ machine :=
    .of_scopes (growing.awaitHost _ kind request timeout location machine) (Nat.le_refl _)
      (quiet_awaitHost _ kind request timeout location machine)

end Steady

/-- Evaluation leaves no scope that it did not enter. -/
theorem evaluation_steady (depth : Nat) (context : Context) :
    (∀ expr, Steady (evaluate depth context expr)) ∧
      ∀ statement, Steady (execute depth context statement) :=
  Steady.lockstep.evaluation depth rfl

end FlowScript
