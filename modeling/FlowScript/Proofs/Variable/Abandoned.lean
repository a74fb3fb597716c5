import FlowScript.Proofs.Variable.Ledger

/-!
# Where an abandoned evaluation stops

An evaluation that is abandoned stops where one of its parts was abandoned, down to
a wait or to the end of the permitted depth. There no scope has been entered.
-/

set_option autoImplicit false

namespace FlowScript

open RunM

open Plain (composes)

/-- If the computation is abandoned, it is so in the scopes that the site started in, or
where a part of the site ends. -/
def Strands {α : Type} (outer : Site) (action : RunM α) (machine : Machine) : Prop :=
  After action.run machine fun outcome final =>
    settled outcome ∨ final.scopes.depth = outer.machine.scopes.depth ∨
      ∃ inner, outer.Enters inner ∧ final = inner.final

namespace Strands

variable {α β : Type} {outer : Site} {machine : Machine}

theorem of_settled {action : RunM α}
    (ends : ∀ machine, After action.run machine fun outcome _ => settled outcome) :
    Strands outer action machine :=
  .inl (ends machine)

theorem of_plain {action : RunM α} (plain : Plain action) : Strands outer action machine :=
  of_settled fun machine => (plain.timeless machine).1

theorem quiet {action : RunM α} (quiet : Quiet action)
    (depth : machine.scopes.depth = outer.machine.scopes.depth) :
    Strands outer action machine :=
  .inr (.inl ((congrArg ScopeStack.depth (quiet machine)).trans depth))

theorem bind {first : RunM α} {next : α → RunM β} (strands : Strands outer first machine)
    (nextStrands : ∀ value middle, first.Returns machine value middle →
      Strands outer (next value) middle) : Strands outer (first >>= next) machine := by
  unfold Strands After at strands ⊢
  rw [run_bind_eq]
  cases ran : first.run.run machine with
  | mk outcome middle =>
      rw [ran] at strands
      cases outcome with
      | ok value => exact nextStrands value middle ran
      | error => exact strands

theorem expression {depth : Nat} {context : Context} {expr : Expr}
    (enters : outer.Enters ⟨depth, context, .expression expr, machine⟩) :
    Strands outer (evaluate depth context expr) machine :=
  .inr (.inr ⟨_, enters, rfl⟩)

theorem runBlock {depth : Nat} {context : Context} {kind : ScopeKind} {block : Block}
    (enters : outer.Enters ⟨depth, context, .sequence block.statements, machine.entering kind⟩) :
    Strands outer (FlowScript.runBlock (execute depth context) kind block) machine := by
  unfold Strands After
  rw [run_runBlock]
  cases ran : (executeAll (execute depth context) block.statements).run.run
      (machine.entering kind) with
  | mk outcome final =>
      cases outcome with
      | ok => exact .inl rfl
      | error interruption =>
          cases interruption with
          | failed fault => exact .inl rfl
          | expired | exhausted => exact .inr (.inr ⟨_, enters, (congrArg Prod.snd ran).symm⟩)

/-! ## Walking through parts -/

section

variable {evaluate : Expr → RunM Value}

theorem evaluateArguments {done : CallArguments} {arguments : List Argument}
    (parts : ∀ before argument rest values after, arguments = before ++ argument :: rest →
      (FlowScript.evaluateArguments evaluate done before).Returns machine values after →
      Strands outer (evaluate argument.value) after) :
    Strands outer (FlowScript.evaluateArguments evaluate done arguments) machine := by
  induction arguments generalizing done machine with
  | nil => exact .of_plain (composes.pure done)
  | cons argument rest ih =>
      refine .bind (parts [] argument rest done machine rfl rfl) fun value middle evaluated =>
        ih ?_
      intro before other others values after split returns
      exact parts (argument :: before) other others values after
        (congrArg (argument :: ·) split) (RunM.Returns.bind evaluated returns)

theorem evaluateElements {elements : List Expr}
    (parts : ∀ before element rest values after, elements = before ++ element :: rest →
      (FlowScript.evaluateElements evaluate before).Returns machine values after →
      Strands outer (evaluate element) after) :
    Strands outer (FlowScript.evaluateElements evaluate elements) machine := by
  induction elements generalizing machine with
  | nil => exact .of_plain (composes.pure [])
  | cons element rest ih =>
      refine .bind (parts [] element rest [] machine rfl rfl) fun value middle evaluated =>
        .bind (.of_plain (composes.onStore (.detach value))) fun copy copied copies =>
          .bind (ih ?_) fun _ _ _ => .of_plain (composes.pure _)
      intro before other others values after split returns
      have made : (FlowScript.evaluateElements evaluate (element :: before)).Returns machine
          (copy :: values) after :=
        RunM.Returns.bind evaluated (RunM.Returns.bind copies (RunM.Returns.bind returns rfl))
      exact parts (element :: before) other others _ after (congrArg (element :: ·) split) made

theorem evaluateEntries {done : Dictionary Value} {entries : List Entry}
    (parts : ∀ before entry rest values after, entries = before ++ entry :: rest →
      (FlowScript.evaluateEntries evaluate done before).Returns machine values after →
      Strands outer (evaluate entry.value) after) :
    Strands outer (FlowScript.evaluateEntries evaluate done entries) machine := by
  induction entries generalizing done machine with
  | nil => exact .of_plain (composes.pure done)
  | cons entry rest ih =>
      refine .bind (parts [] entry rest done machine rfl rfl) fun value middle evaluated =>
        .bind (.of_plain (composes.onStore (.detach value))) fun copy copied copies => ih ?_
      intro before other others values after split returns
      exact parts (entry :: before) other others values after (congrArg (entry :: ·) split)
        (RunM.Returns.bind evaluated (RunM.Returns.bind copies returns))

theorem applyOperations {program : Program} {left : Value} {operations : List Operation}
    (parts : ∀ before operation rest value after, operations = before ++ operation :: rest →
      operation.op ≠ .isA →
      (FlowScript.applyOperations evaluate program left before).Returns machine value after →
      Strands outer (evaluate operation.operand) after) :
    Strands outer (FlowScript.applyOperations evaluate program left operations) machine := by
  induction operations generalizing left machine with
  | nil => exact .of_plain (composes.pure left)
  | cons operation rest ih =>
      rw [applyOperations_cons]
      refine .bind ?_ fun value middle applied => ih ?_
      · by_cases tests : operation.op = .isA
        · unfold applyOperation
          rw [tests]
          exact .of_plain (composes.typeTest program left operation.operand)
        · rw [applyOperation_eq evaluate program left tests]
          exact .bind (parts [] operation rest left machine rfl tests rfl) fun right _ _ =>
            .of_plain (composes.applied operation left right)
      · intro before other others result after split evaluated returns
        refine parts (operation :: before) other others result after
          (congrArg (operation :: ·) split) evaluated ?_
        rw [applyOperations_cons]
        exact applied.bind returns

theorem runFirstBranch {condition : Expr → RunM Bool} {run : Block → RunM Unit}
    {branches : List Conditional}
    (conditions : ∀ before branch rest after, branches = before ++ branch :: rest →
      (FlowScript.runFirstBranch condition run before).Returns machine false after →
      Strands outer (condition branch.condition) after)
    (blocks : ∀ before branch rest reached after, branches = before ++ branch :: rest →
      (FlowScript.runFirstBranch condition run before).Returns machine false reached →
      (condition branch.condition).Returns reached true after →
      Strands outer (run branch.body) after) :
    Strands outer (FlowScript.runFirstBranch condition run branches) machine := by
  induction branches generalizing machine with
  | nil => exact .of_plain (composes.pure false)
  | cons branch rest ih =>
      refine .bind (conditions [] branch rest machine rfl rfl) fun holds judged judges => ?_
      cases holds with
      | true =>
          exact .bind (blocks [] branch rest machine judged rfl rfl judges) fun _ _ _ =>
            .of_plain (composes.pure true)
      | false =>
          have passes : ∀ {before : List Conditional} {after : Machine},
              (FlowScript.runFirstBranch condition run before).Returns judged false after →
              (FlowScript.runFirstBranch condition run (branch :: before)).Returns machine false
                after := by
            intro before after returns
            unfold FlowScript.runFirstBranch
            exact RunM.Returns.bind judges returns
          refine ih ?_ ?_
          · intro before other others after split returns
            exact conditions (branch :: before) other others after
              (congrArg (branch :: ·) split) (passes returns)
          · intro before other others reached after split returns holds
            exact blocks (branch :: before) other others reached after
              (congrArg (branch :: ·) split) (passes returns) holds

theorem repeatUntilSignal {body : RunM FlowSignal} {rounds : Nat}
    (parts : ∀ past after, past < rounds →
      (FlowScript.repeatUntilSignal body past).Returns machine false after →
      Strands outer body after) :
    Strands outer (FlowScript.repeatUntilSignal body rounds) machine := by
  induction rounds generalizing machine with
  | zero => exact .of_plain (composes.pure false)
  | succ rounds ih =>
      refine .bind (parts 0 machine (Nat.succ_pos _) rfl) fun signal ended ends => ?_
      split
      · next proceeds =>
          refine ih fun past after below returns => parts (past + 1) after (by omega) ?_
          have next : RunM.Returns (if signal = .proceed then FlowScript.repeatUntilSignal body past
              else pure true) ended false after := by
            rwa [if_pos proceeds]
          exact RunM.Returns.bind ends next
      · exact .of_plain (composes.pure true)

end

/-! ## Calls -/

section

variable {depth : Nat} {context : Context} {definition : Workflow} {arguments : CallArguments}
  {called : Span} {ready : Machine}

theorem settled_onScopesAt (location : Span) (change : ScopeStack → Except Cause ScopeStack)
    (machine : Machine) :
    After (RunM.onScopesAt location change).run machine fun outcome _ => settled outcome := by
  unfold After
  rw [run_onScopesAt]
  cases change machine.scopes <;> rfl

/-- Binding parameters ends by itself. -/
theorem bindParameters (machine : Machine) :
    Strands outer (FlowScript.bindParameters definition arguments called) machine := by
  let Settles : ∀ {α : Type}, RunM α → RunM α → Prop := fun action _ =>
    ∀ machine, After action.run machine fun outcome _ => settled outcome
  have settles : Sequences Settles := by
    refine .of_plain (fun plain machine => (plain.timeless machine).1) fun first next machine => ?_
    rw [after_run_bind]
    refine (first machine).imp fun outcome middle ends => ?_
    cases outcome with
    | ok value => exact next value middle
    | error => exact ends
  exact of_settled (settles.bindParameters (fun location name value machine =>
    settled_onScopesAt location _ machine) definition arguments called)

theorem invoke (enters : ∀ after, (enterWorkflow definition arguments called).Returns ready () after →
      outer.Enters ⟨depth, context, .sequence definition.body.statements, after⟩) :
    Strands outer (FlowScript.invoke (execute depth context) definition arguments called)
      ready := by
  rw [invoke_eq]
  refine .bind (.of_plain (composes.report _ _ _)) fun _ announced announces => ?_
  have body : Strands outer (callBody (execute depth context) definition arguments called)
      (announced.entering .function) := by
    refine .bind (bindParameters _) fun _ after bound =>
      .bind (.inr (.inr ⟨_, enters after ?_, rfl⟩)) fun _ _ _ =>
        .bind (.of_plain composes.getScopes) fun _ _ _ => .of_plain (composes.checkResult _ _ _)
    exact RunM.Returns.bind announces (RunM.Returns.bind rfl bound)
  unfold Strands After at body ⊢
  rw [run_runCall]
  cases ran : (callBody (execute depth context) definition arguments called).run.run
      (announced.entering .function) with
  | mk outcome final =>
      rw [ran] at body
      cases outcome with
      | ok => exact .inl rfl
      | error interruption =>
          cases interruption with
          | failed fault => exact .inl rfl
          | expired | exhausted => exact body

theorem awaitInvocation {timeout : Duration} {location : Span}
    (enters : ∀ after, (enterWorkflow definition arguments called).Returns ready () after →
      outer.Enters ⟨depth, context.awaiting ready.now timeout,
        .sequence definition.body.statements, after⟩) :
    Strands outer (FlowScript.awaitInvocation (execute depth) context definition arguments called
      timeout location) ready := by
  have inside := invoke enters
  unfold Strands After at inside ⊢
  rw [run_awaitInvocation]
  cases ran : (FlowScript.invoke (execute depth (context.awaiting ready.now timeout)) definition
      arguments called).run.run ready with
  | mk outcome final =>
      rw [ran] at inside
      cases outcome with
      | ok => exact inside
      | error interruption =>
          dsimp only
          split
          · exact .inl rfl
          · exact inside

end

end Strands

/-! ## Expressions and statements -/

theorem RunM.Returns.depth {α : Type} {action : RunM α} {machine final : Machine} {value : α}
    (returns : action.Returns machine value final) (balances : Balances action) :
    final.scopes.depth = machine.scopes.depth := by
  have ends := balances machine
  exact ((ends.of_run returns).2 rfl).depth

theorem evaluate_strands (depth : Nat) (context : Context) (expr : Expr) (machine : Machine) :
    Strands ⟨depth, context, .expression expr, machine⟩ (evaluate depth context expr) machine := by
  cases depth with
  | zero => exact .inr (.inl rfl)
  | succ depth =>
      have parts := (evaluation_balances depth context).1
      cases expr with
      | literal value span => exact .of_plain (composes.onStore (.scalar _))
      | path name => exact .of_plain (composes.resolve _ _)
      | call callee arguments argumentsSpan span =>
          refine .bind (.of_plain (composes.resolve _ _)) fun function found resolved =>
            .bind (.evaluateArguments ?_) fun _ _ _ => .of_plain (composes.callValue _ _ _ _)
          rintro before argument rest values after rfl returns
          exact .expression (.evaluates (.argument (RunM.Returns.bind resolved returns)))
      | array elements span =>
          refine .bind (.evaluateElements ?_) fun _ _ _ => .of_plain (.onStore (grows_allocate _ _))
          rintro before element rest values after rfl returns
          exact .expression (.evaluates (.element returns))
      | dictionary entries span =>
          refine .bind (.evaluateEntries ?_) fun _ _ _ => .of_plain (.onStore (grows_allocate _ _))
          rintro before entry rest values after rfl returns
          exact .expression (.evaluates (.entry returns))
      | unary op operand span =>
          exact .bind (.expression (.evaluates .unary)) fun value _ _ =>
            .of_plain (composes.onStoreAt _ (.unary op value))
      | chain first operations span =>
          refine .bind (.expression (.evaluates .first)) fun left started starts =>
            .applyOperations ?_
          rintro before operation rest value after rfl evaluated returns
          exact .expression (.evaluates (.operand evaluated (RunM.Returns.bind starts returns)))
      | await operand duration span =>
          refine .bind (.expression (.evaluates .awaited)) fun awaited _ returns =>
            .bind (.expression (.evaluates (.duration returns))) fun limit middle limits =>
              .bind (.of_plain (composes.expectDuration limit _)) fun timeout ready expects => ?_
          have evaluated : (evaluateAwait depth context operand duration).Returns machine
              (awaited, timeout) ready :=
            RunM.Returns.bind returns (RunM.Returns.bind limits (RunM.Returns.bind expects rfl))
          have depths : ready.scopes.depth = machine.scopes.depth :=
            evaluated.depth (Balances.lockstep.awaited parts operand duration)
          unfold awaitValue
          split
          · exact .awaitInvocation fun after enters => .invokes (.body evaluated rfl enters)
          · exact .awaitInvocation fun after enters => .invokes (.body evaluated rfl enters)
          · split
            · exact .quiet (quiet_awaitHost _ _ _ _ _) depths
            · exact .of_plain (composes.fail _ _)
          · exact .of_plain (composes.fail _ _)
      | attempt operand span =>
          refine .bind (.expression (.evaluates .attempt)) fun value _ _ => ?_
          dsimp only
          split
          · exact .bind (.of_plain (composes.report _ _ _)) fun _ _ _ =>
              .bind (.of_settled fun _ => rfl) fun _ _ _ => .of_plain (composes.pure value)
          · exact .of_plain (composes.pure value)

theorem Strands.setReturn {outer : Site} {machine : Machine} (value : Value) :
    Strands outer (RunM.setReturn value) machine :=
  .of_settled fun _ => rfl

theorem Strands.onScopesAt {outer : Site} {machine : Machine} (location : Span)
    (change : ScopeStack → Except Cause ScopeStack) :
    Strands outer (RunM.onScopesAt location change) machine :=
  .of_settled (settled_onScopesAt location change)

/-- Of what statements do with their values only a delay may be abandoned. -/
theorem Strands.finish {outer : Site} {machine : Machine} (context : Context)
    (statement : Statement) (value : Value)
    (depth : machine.scopes.depth = outer.machine.scopes.depth) :
    Strands outer (statement.finish context value) machine := by
  cases statement with
  | assignment target source span =>
      change Strands outer (assignTarget target value span) machine
      unfold assignTarget
      split
      · exact .bind (.of_plain (composes.resolve _ _)) fun current _ _ =>
          .bind (.of_plain (composes.onStoreAt _ (.assign current _))) fun _ _ _ =>
            .onScopesAt _ _
      · exact .bind (.of_plain (composes.resolve _ _)) fun parent _ _ =>
          .of_plain (composes.assignEntry parent _ _ _)
  | delay duration span =>
      exact .quiet (.bind (composes.expectDuration value _).quiet fun _ =>
        .bind (.report _ _ _) fun _ => .wait _ _) depth
  | returning result span => exact .setReturn value
  | raising raised span =>
      refine .bind (.of_plain composes.getStore) fun store _ _ => ?_
      split
      · exact .setReturn _
      · exact .bind (.of_plain (composes.onStore (.error _ _))) fun _ _ _ => .setReturn _
      · exact .of_plain (composes.fail _ _)
  | importing | declaration | breaking | expression | branch | loop | workflow =>
      exact .of_plain (composes.pure ())

theorem execute_strands (depth : Nat) (context : Context) (statement : Statement)
    (machine : Machine) :
    Strands ⟨depth, context, .statement statement, machine⟩ (execute depth context statement)
      machine := by
  cases depth with
  | zero => exact .inr (.inl rfl)
  | succ depth =>
      have announcing : Strands ⟨depth + 1, context, .statement statement, machine⟩
          (announce context statement) machine := .of_plain (composes.report _ _ _)
      cases statement with
      | importing path span => exact .bind announcing fun _ _ _ => .of_plain (composes.report _ _ _)
      | declaration name typeName value span =>
          rw [execute_declaration]
          refine .bind (.bind announcing fun _ _ announces =>
            .bind (.of_plain (composes.resolveKind _)) fun kind resolved resolves =>
              .bind ?_ fun initializer _ _ => .bind (.of_plain (composes.currentInstant context))
                fun now _ _ =>
                  .of_plain (composes.onStoreAt _ (.construct now kind initializer)))
            fun _ _ _ => .onScopesAt _ _
          cases value with
          | some value =>
              exact .expression (.starts (.declaration (RunM.Returns.bind announces resolves)))
          | none => exact .of_plain (composes.pure _)
      | assignment | delay | returning | raising | expression =>
          rw [execute_value depth context rfl]
          refine .bind announcing fun _ _ announces =>
            .bind (.expression (.starts (.value rfl announces))) fun value after evaluated =>
              .finish context _ value ?_
          have started := RunM.Returns.depth announces (.of_quiet (.report _ _ _))
          have finished := RunM.Returns.depth evaluated (modest_evaluate depth context _).balances
          exact finished.trans started
      | breaking span => exact .bind announcing fun _ _ _ => .of_settled fun _ => rfl
      | branch first others otherwise span =>
          rw [execute_branch]
          refine .bind announcing fun _ after announces =>
            .bind (.runFirstBranch ?_ ?_) fun chosen _ tried => ?_
          · intro before branch rest reached split returns
            refine .bind (.expression (.starts (.condition split ?_))) fun value _ _ =>
              .of_plain (composes.onStoreAt _ (.truth value))
            exact RunM.Returns.bind announces returns
          · intro before branch rest reached judged split returns holds
            refine .bind (.runBlock (.runs (.branch split ?_ holds))) fun _ _ _ =>
              .of_plain (composes.pure ())
            exact RunM.Returns.bind announces returns
          · cases chosen with
            | true => exact .of_plain (composes.pure ())
            | false =>
                cases otherwise with
                | none => exact .of_plain (composes.pure ())
                | some block =>
                    exact .bind (.runBlock (.runs (.otherwise (RunM.Returns.bind announces tried))))
                      fun _ _ _ => .of_plain (composes.pure ())
      | loop body span =>
          rw [execute_loop]
          refine .bind announcing fun _ after announces =>
            .bind (.repeatUntilSignal ?_) fun signalled _ _ => ?_
          · intro past reached below returns
            exact .runBlock (.runs (.round below (RunM.Returns.bind announces returns)))
          · split
            · exact .of_plain (composes.pure ())
            · exact .of_plain (composes.report _ _ _)
      | workflow definition => exact .bind announcing fun _ _ _ => .onScopesAt _ _

end FlowScript
