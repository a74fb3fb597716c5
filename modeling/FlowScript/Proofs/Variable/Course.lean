import FlowScript.Proofs.Growth.Surroundings
import FlowScript.Proofs.Run.Order
import FlowScript.Proofs.Variable.Steady

/-!
# The course of an evaluation

A site covers the machines before and after everything it leads to. They come one
after another: the parts of a site follow each other, and each of them starts and
ends within it. No scope that is open when the site starts is left on the way.
-/

set_option autoImplicit false

namespace FlowScript

open RunM

open Steady (composes lockstep)

namespace Site

/-- The machine before or after something the site leads to. -/
def Covers (site : Site) (machine : Machine) : Prop :=
  ∃ inner, Relation.ReflTransGen Enters site inner ∧
    (machine = inner.machine ∨ machine = inner.final)

theorem leads_final (site : Site) : site.machine.LeadsTo site.machine.scopes.depth site.final := by
  obtain ⟨depth, context, work, machine⟩ := site
  obtain ⟨evaluates, executes⟩ := evaluation_steady depth context
  cases work with
  | expression expr => exact evaluates expr machine
  | statement statement => exact executes statement machine
  | sequence statements => exact composes.statements executes statements machine

/-! ## A part within its site -/

/-- The part starts after the site has started, and ends before the site does. -/
structure Surrounds (outer inner : Site) : Prop where
  starts : outer.machine.LeadsTo outer.machine.scopes.depth inner.machine
  ends : inner.final.LeadsTo outer.machine.scopes.depth outer.final

/-- What remains of a computation behind one of its parts. -/
theorem leads_rest {α β : Type} {part : RunM α} {rest : α → RunM β} {machine : Machine}
    {levels : Nat} (steady : ∀ value, Steady (rest value))
    (levels_le : levels ≤ ((part.run.run machine).2).scopes.depth) :
    (part.run.run machine).2.LeadsTo levels ((part >>= rest).run.run machine).2 := by
  rw [run_bind_eq]
  cases ran : part.run.run machine with
  | mk outcome middle =>
      rw [ran] at levels_le
      cases outcome with
      | ok value => exact (steady value middle).mono levels_le
      | error => exact .refl levels_le

/-- A part that is an expression, with steady work behind it. -/
theorem Surrounds.of_expression {outer : Site} {depth : Nat} {context : Context} {expr : Expr}
    {after : Machine} {β : Type} {rest : Value → RunM β}
    (starts : outer.machine.LeadsTo outer.machine.scopes.depth after)
    (runs : outer.final = ((evaluate depth context expr >>= rest).run.run after).2)
    (steady : ∀ value, Steady (rest value)) :
    outer.Surrounds ⟨depth, context, .expression expr, after⟩ := by
  refine ⟨starts, ?_⟩
  rw [runs]
  refine leads_rest steady (Nat.le_trans starts.levels_le ?_)
  exact (leads_final ⟨depth, context, .expression expr, after⟩).levels_le

theorem Evaluates.surrounds {outer inner : Site} (evaluates : outer.Evaluates inner) :
    outer.Surrounds inner := by
  cases evaluates with
  | @argument depth context callee before rest argument argumentsSpan span machine after values
      returns =>
      have parts := (evaluation_steady depth context).1
      obtain ⟨function, found, resolved, evaluated⟩ := returns.steps
      refine .of_expression ?_ (congrArg Prod.snd (run_argument resolved evaluated)) fun value =>
        .bind (composes.arguments parts _ rest) fun arguments =>
          composes.callValue function callee arguments span
      exact (Steady.bind (composes.resolve _ _) fun _ =>
        composes.arguments parts _ before).returned returns (Nat.le_refl _)
  | @element depth context before rest element span machine after values returns =>
      have parts := (evaluation_steady depth context).1
      refine .of_expression ?_ (congrArg Prod.snd (run_element returns)) fun value =>
        .bind (composes.onStore (.detach value)) fun copy =>
          .bind (composes.elements parts rest) fun others =>
            composes.onStore (.array (values ++ copy :: others))
      exact (composes.elements parts before).returned returns (Nat.le_refl _)
  | @entry depth context before rest entry span machine after values returns =>
      have parts := (evaluation_steady depth context).1
      refine .of_expression ?_ (congrArg Prod.snd (run_entry returns)) fun value =>
        .bind (composes.onStore (.detach value)) fun copy =>
          .bind (composes.entries parts (values.insert entry.key.name copy) rest) fun entries =>
            .of_plain (.onStore (grows_allocate .dictionary (.dictionary entries)))
      exact (composes.entries parts _ before).returned returns (Nat.le_refl _)
  | @unary depth context op operand span machine =>
      exact .of_expression (.refl (Nat.le_refl _)) rfl fun value =>
        composes.onStoreAt span (.unary op value)
  | @first depth context first operations span machine =>
      exact .of_expression (.refl (Nat.le_refl _)) rfl fun value =>
        composes.operations (evaluation_steady depth context).1 context.program value operations
  | @operand depth context first before rest operation span machine after left evaluated
      returns =>
      have parts := (evaluation_steady depth context).1
      refine .of_expression ?_ (congrArg Prod.snd (run_operand evaluated returns)) fun value =>
        .bind (composes.applied operation left value) fun result =>
          composes.operations parts context.program result rest
      exact (Steady.bind (parts first) fun start =>
        composes.operations parts context.program start before).returned returns (Nat.le_refl _)
  | @awaited depth context operand duration span machine =>
      exact .of_expression (.refl (Nat.le_refl _)) rfl fun value =>
        .bind ((evaluation_steady depth context).1 duration) fun limit =>
          .bind (composes.expectDuration limit _) fun timeout =>
            lockstep.awaitedValue depth context value operand timeout span
  | @duration depth context operand duration span machine after awaited returns =>
      refine .of_expression ?_ (congrArg Prod.snd (run_duration returns)) fun limit =>
        .bind (composes.expectDuration limit duration.span) fun timeout =>
          lockstep.awaitedValue depth context awaited operand timeout span
      exact ((evaluation_steady depth context).1 operand).returned returns (Nat.le_refl _)
  | @attempt depth context operand span machine =>
      refine .of_expression (.refl (Nat.le_refl _)) rfl fun value => ?_
      dsimp only
      split
      · exact .bind (composes.report _ _ _) fun _ =>
          .bind (.modifyScopes (·.levels_setReturn value)) fun _ => composes.pure value
      · exact composes.pure value

theorem Untaken.leads {depth : Nat} {context : Context} {statement : Statement}
    {machine after : Machine} {branches : List Conditional}
    (untaken : Untaken depth context statement machine branches after) :
    machine.LeadsTo machine.scopes.depth after :=
  (Steady.bind (composes.report _ _ _) fun _ =>
    lockstep.branches depth context branches).returned untaken (Nat.le_refl _)

theorem Starts.surrounds {outer inner : Site} (starts : outer.Starts inner) :
    outer.Surrounds inner := by
  cases starts with
  | @declaration depth context name typeName value span machine after kind returns =>
      refine .of_expression ?_ (congrArg Prod.snd (run_initializer returns)) fun initializer =>
        lockstep.declareVariable rfl name kind span initializer
      exact (Steady.bind (composes.report _ _ _) fun _ =>
        composes.resolveKind typeName).returned returns (Nat.le_refl _)
  | @value depth context statement value machine after owned returns =>
      refine .of_expression ?_ (congrArg Prod.snd (run_value owned returns)) fun value =>
        lockstep.finish rfl statement value
      exact (composes.report _ _ _).returned returns (Nat.le_refl _)
  | @condition depth context first branch others before rest otherwise span machine after split
      returns =>
      refine .of_expression (Untaken.leads returns) ?_ fun value =>
        .bind (composes.onStoreAt branch.condition.span (.truth value)) fun holds =>
          .bind (lockstep.takeBranch depth context branch rest holds) fun chosen =>
            lockstep.otherwise depth context otherwise chosen
      change (StateT.run (ExceptT.run (execute (depth + 1) context _)) machine).2 = _
      rw [run_execute_branch split returns]
      simp only [testCondition, bind_assoc]

/-- A part that is a block, with steady work behind it. -/
theorem Surrounds.of_block {outer : Site} {depth : Nat} {context : Context} {kind : ScopeKind}
    {block : Block} {after : Machine} {β : Type} {rest : FlowSignal → RunM β}
    (starts : outer.machine.LeadsTo outer.machine.scopes.depth after)
    (runs : outer.final =
      ((runBlock (execute depth context) kind block >>= rest).run.run after).2)
    (steady : ∀ signal, Steady (rest signal)) :
    outer.Surrounds ⟨depth, context, .sequence block.statements, after.entering kind⟩ := by
  have executes := (evaluation_steady depth context).2
  refine ⟨starts.trans (.entering starts.levels_le kind), ?_⟩
  have leaves := (leads_runBlock executes kind block after).mono starts.levels_le
  rw [runs]
  exact leaves.trans (leads_rest steady leaves.levels_le)

theorem Runs.surrounds {outer inner : Site} (runs : outer.Runs inner) :
    outer.Surrounds inner := by
  cases runs with
  | @first depth context statement rest machine =>
      refine ⟨.refl (Nat.le_refl _), ?_⟩
      exact leads_rest (fun _ => composes.rest (lockstep.statement depth context) rest)
        (leads_final ⟨depth, context, .statement statement, machine⟩).levels_le
  | @next depth context statement rest machine after returns proceeds =>
      have starts := ((evaluation_steady depth context).2 statement).returned returns
        (Nat.le_refl _)
      have same : Site.final ⟨depth, context, .sequence (statement :: rest), machine⟩ =
          Site.final ⟨depth, context, .sequence rest, after⟩ :=
        congrArg Prod.snd (run_otherStatements returns proceeds)
      refine ⟨starts, ?_⟩
      rw [same]
      exact .refl (Nat.le_trans starts.levels_le
        (leads_final ⟨depth, context, .sequence rest, after⟩).levels_le)
  | @branch depth context first branch others before rest otherwise span machine reached after
      split returns holds =>
      have reaches := Untaken.leads returns
      refine .of_block ?_ (congrArg Prod.snd (run_takenBranch split returns holds)) fun _ =>
        lockstep.otherwise depth context otherwise true
      have tests := lockstep.condition (lockstep.expression depth context) branch.condition
      exact reaches.trans (tests.returned holds reaches.levels_le)
  | @otherwise depth context first others block span machine after returns =>
      exact .of_block (Untaken.leads returns) (congrArg Prod.snd (run_lastBranch returns))
        fun _ => composes.pure ()
  | @round depth context body span rounds machine after below returns =>
      obtain ⟨more, count⟩ := Nat.exists_eq_add_of_lt below
      refine .of_block ?_ (congrArg Prod.snd (run_execute_loop (by omega) returns)) fun signal =>
        lockstep.goOnLooping depth context body more signal
      exact (Steady.bind (composes.report _ _ _) fun _ =>
        lockstep.rounds depth context body rounds).returned returns (Nat.le_refl _)

theorem steady_enterWorkflow (definition : Workflow) (arguments : CallArguments) (called : Span) :
    Steady (enterWorkflow definition arguments called) :=
  .bind (composes.report _ _ _) fun _ =>
    .bind (fun _ => .entering (Nat.le_refl _) .function) fun _ =>
      composes.bindParameters .declare definition arguments called

theorem Invokes.surrounds {outer inner : Site} {definition : Workflow}
    (invokes : outer.Invokes definition inner) : outer.Surrounds inner := by
  cases invokes with
  | @body depth context operand duration span called awaited timeout _ arguments machine ready
      after evaluated pending enters =>
      have executes := fun context => (evaluation_steady depth context).2
      have evaluates := lockstep.awaited (lockstep.expression depth context) operand duration
      have reaches : machine.LeadsTo machine.scopes.depth ready :=
        evaluates.returned evaluated (Nat.le_refl _)
      have starts : ready.LeadsTo machine.scopes.depth after :=
        (steady_enterWorkflow definition arguments called).returned enters reaches.levels_le
      obtain ⟨_, announced, announces, enters⟩ := RunM.Returns.steps enters
      obtain ⟨_, entered, pushes, binds⟩ := enters.steps
      cases pushes
      have reports : ready.LeadsTo machine.scopes.depth announced :=
        (composes.report _ _ _).returned announces reaches.levels_le
      have awaits : Site.final ⟨depth + 1, context, .expression (.await operand duration span),
          machine⟩ = ((awaitInvocation (execute depth) context definition arguments called timeout
            span).run.run ready).2 := congrArg Prod.snd (run_awaitCall evaluated pending)
      have calls : (invoke (execute depth (context.awaiting ready.now timeout)) definition arguments
          called).run.run ready = (runCall (execute depth (context.awaiting ready.now timeout))
            definition arguments called).run.run announced := by
        rw [invoke_eq]
        exact announces.run_bind _
      have body : (callBody (execute depth (context.awaiting ready.now timeout)) definition
          arguments called).run.run (announced.entering .function) = (do
            executeAll (execute depth (context.awaiting ready.now timeout))
              definition.body.statements
            let scopes ← getScopes
            checkResult definition scopes.returnValue? called : RunM Value).run.run after :=
        binds.run_bind _
      refine ⟨reaches.trans starts, ?_⟩
      -- The body ends, then the call, then the await.
      have checks := leads_rest (fun _ => .bind composes.getScopes fun scopes =>
          composes.checkResult definition scopes.returnValue? called)
        (Nat.le_trans starts.levels_le (leads_final ⟨depth, context.awaiting ready.now timeout,
          .sequence definition.body.statements, after⟩).levels_le)
      have leaves := (leads_runCall (executes (context.awaiting ready.now timeout)) definition
        arguments called announced).mono reports.levels_le
      have answers := (leads_awaitInvocation executes context definition arguments called timeout
        span ready).mono reaches.levels_le
      rw [body] at leaves
      rw [calls] at answers
      rw [awaits]
      exact (checks.trans leaves).trans answers

theorem Enters.surrounds {outer inner : Site} (enters : outer.Enters inner) :
    outer.Surrounds inner := by
  cases enters with
  | evaluates evaluates => exact evaluates.surrounds
  | starts starts => exact starts.surrounds
  | runs runs => exact runs.surrounds
  | invokes invokes => exact invokes.surrounds

theorem Covers.leads {site : Site} {machine : Machine} (covers : site.Covers machine) :
    site.machine.LeadsTo site.machine.scopes.depth machine := by
  obtain ⟨inner, path, place⟩ := covers
  induction path using Relation.ReflTransGen.head_induction_on with
  | refl =>
      rcases place with rfl | rfl
      · exact .refl (Nat.le_refl _)
      · exact inner.leads_final
  | head enters _ ih =>
      have starts := enters.surrounds.starts
      exact starts.trans (ih.mono starts.levels_le)

theorem Covers.leads_final {site : Site} {machine : Machine} (covers : site.Covers machine) :
    machine.LeadsTo site.machine.scopes.depth site.final := by
  obtain ⟨inner, path, place⟩ := covers
  induction path using Relation.ReflTransGen.head_induction_on with
  | refl =>
      rcases place with rfl | rfl
      · exact inner.leads_final
      · exact .refl inner.leads_final.levels_le
  | head enters _ ih =>
      have surrounds := enters.surrounds
      exact (ih.mono surrounds.starts.levels_le).trans surrounds.ends

/-! ## One part after another -/

/-- A part ends before whatever is reached behind it. -/
theorem expression_precedes {depth : Nat} {context : Context} {expr : Expr}
    {after later : Machine} {levels : Nat} {β : Type} {rest : Value → RunM β} {result : β}
    (returns : (evaluate depth context expr >>= rest).Returns after result later)
    (levels_le : levels ≤ after.scopes.depth) (steady : ∀ value, Steady (rest value)) :
    (Site.final ⟨depth, context, .expression expr, after⟩).LeadsTo levels later := by
  have kept := (leads_final ⟨depth, context, .expression expr, after⟩).levels_le
  have leads := leads_rest steady (Nat.le_trans levels_le kept)
  rw [returns] at leads
  exact leads

theorem block_precedes {depth : Nat} {context : Context} {kind : ScopeKind} {block : Block}
    {after later : Machine} {levels : Nat} {β : Type} {rest : FlowSignal → RunM β} {result : β}
    (returns : (runBlock (execute depth context) kind block >>= rest).Returns after result later)
    (levels_le : levels ≤ after.scopes.depth) (steady : ∀ signal, Steady (rest signal)) :
    (Site.final ⟨depth, context, .sequence block.statements, after.entering kind⟩).LeadsTo levels
      later := by
  have executes := lockstep.statement depth context
  have leaves := (leads_runBlock executes kind block after).mono levels_le
  have leads := leads_rest steady leaves.levels_le
  rw [returns] at leads
  exact leaves.trans leads

/-- A part that has ended leads to the machine on which another part starts. -/
theorem Precedes.leads {machine later : Machine} {left : Site}
    (precedes : Precedes machine left later) :
    left.final.LeadsTo machine.scopes.depth later := by
  induction precedes with
  | @argument depth context callee before between argument argumentsSpan function values others
      found after later resolved evaluated returns =>
      have parts := (evaluation_steady depth context).1
      have reaches := (Steady.bind (composes.resolve _ _) fun _ =>
        composes.arguments parts _ before).returned (resolved.bind evaluated) (Nat.le_refl _)
      exact expression_precedes returns reaches.levels_le fun _ =>
        composes.arguments parts _ between
  | @element depth context before between element values others after later evaluated returns =>
      have parts := (evaluation_steady depth context).1
      have reaches := (composes.elements parts before).returned evaluated (Nat.le_refl _)
      exact expression_precedes returns reaches.levels_le fun value =>
        .bind (composes.onStore (.detach value)) fun _ =>
          .bind (composes.elements parts between) fun _ => composes.pure _
  | @entry depth context before between entry values others after later evaluated returns =>
      have parts := (evaluation_steady depth context).1
      have reaches := (composes.entries parts _ before).returned evaluated (Nat.le_refl _)
      exact expression_precedes returns reaches.levels_le fun value =>
        .bind (composes.onStore (.detach value)) fun _ =>
          composes.entries parts _ between
  | @first depth context first before value after returns =>
      exact expression_precedes returns (Nat.le_refl _) fun value =>
        composes.operations (evaluation_steady depth context).1 context.program value before
  | @operand depth context first before between operation left value after later evaluated returns
      operates =>
      have parts := (evaluation_steady depth context).1
      have reaches := (Steady.bind (parts first) fun start =>
        composes.operations parts context.program start before).returned returns (Nat.le_refl _)
      rw [applyOperations_cons, applyOperation_eq _ _ _ evaluated, bind_assoc] at operates
      exact expression_precedes operates reaches.levels_le fun right =>
        .bind (composes.applied operation left right) fun result =>
          composes.operations parts context.program result between
  | @awaited depth context operand awaited after returns =>
      have ended : Site.final ⟨depth, context, .expression operand, machine⟩ = after :=
        congrArg Prod.snd returns
      rw [ended]
      exact .refl (((evaluation_steady depth context).1 operand).returned returns
        (Nat.le_refl _)).levels_le
  | @call depth context operand duration span called awaited timeout definition arguments ready
      after evaluated pending enters =>
      have reaches := expression_precedes evaluated (Nat.le_refl _) fun _ =>
        .bind ((evaluation_steady depth context).1 duration) fun limit =>
          .bind (composes.expectDuration limit _) fun _ => composes.pure _
      exact reaches.trans ((steady_enterWorkflow _ _ _).returned enters reaches.levels_le)
  | @duration depth context operand duration span called awaited limit timeout definition
      arguments middle limited ready after returns limits expects pending enters =>
      have reaches := ((evaluation_steady depth context).1 operand).returned returns
        (Nat.le_refl _)
      have ready := expression_precedes (limits.bind expects) reaches.levels_le fun limit =>
        composes.expectDuration limit _
      exact ready.trans ((steady_enterWorkflow _ _ _).returned enters ready.levels_le)
  | @condition depth context statement before between branch after later untaken more =>
      have goesOn := untaken.rest more
      simp only [testCondition, bind_assoc] at goesOn
      exact expression_precedes goesOn untaken.leads.levels_le fun value =>
        .bind (composes.onStoreAt _ (.truth value)) fun holds =>
          lockstep.takeBranch depth context branch between holds
  | tested untaken holds =>
      exact expression_precedes holds untaken.leads.levels_le fun value =>
        composes.onStoreAt _ (.truth value)
  | testing _ holds ih =>
      exact ih.trans ((lockstep.condition (lockstep.expression _ _) _).returned holds ih.levels_le)
  | entering _ ih => exact ih.trans (.entering ih.levels_le _)
  | @round depth context statement body rounds more after later returns laterReturns =>
      have reaches := (Steady.bind (composes.report _ _ _) fun _ =>
        lockstep.rounds depth context body rounds).returned returns (Nat.le_refl _)
      obtain ⟨_, announced, announces, repeated⟩ := returns.steps
      have goesOn := laterReturns.rest announces
      rw [runRounds_add] at goesOn
      exact block_precedes (goesOn.rest repeated) reaches.levels_le fun signal => by
        split
        · exact lockstep.rounds depth context body more
        · exact composes.pure true
  | @statement depth context statement after returns =>
      have ended : Site.final ⟨depth, context, .statement statement, machine⟩ = after :=
        congrArg Prod.snd returns
      rw [ended]
      exact .refl (((evaluation_steady depth context).2 statement).returned returns
        (Nat.le_refl _)).levels_le

/-- Of two machines of the course of a site one leads to the other. -/
theorem Covers.ordered {site : Site} {first second : Machine} (covered : site.Covers first)
    (alsoCovered : site.Covers second) :
    first.LeadsTo site.machine.scopes.depth second ∨
      second.LeadsTo site.machine.scopes.depth first := by
  obtain ⟨inner, path, place⟩ := covered
  induction path using Relation.ReflTransGen.head_induction_on with
  | refl =>
      rcases place with rfl | rfl
      · exact .inl alsoCovered.leads
      · exact .inr alsoCovered.leads_final
  | @head site part enters rest ih =>
      have within : part.Covers first := ⟨inner, rest, place⟩
      have whole : site.Covers first := ⟨inner, rest.head enters, place⟩
      have levels := enters.surrounds.starts.levels_le
      obtain ⟨other, otherPath, otherPlace⟩ := alsoCovered
      rcases otherPath.cases_head with rfl | ⟨otherPart, otherEnters, otherRest⟩
      · rcases otherPlace with rfl | rfl
        · exact .inr whole.leads
        · exact .inl whole.leads_final
      · have otherWithin : otherPart.Covers second := ⟨other, otherRest, otherPlace⟩
        have otherLevels := otherEnters.surrounds.starts.levels_le
        rcases enters.inTurn otherEnters with rfl | before | after
        · exact (ih otherWithin).imp (·.mono levels) (·.mono levels)
        · exact .inl (((within.leads_final.mono levels).trans before.leads).trans
            (otherWithin.leads.mono otherLevels))
        · exact .inr (((otherWithin.leads_final.mono otherLevels).trans after.leads).trans
            (within.leads.mono levels))

end Site

end FlowScript
