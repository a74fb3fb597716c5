import FlowScript.Proofs.Variable.Steady

/-!
# Only declarations make variables

An expression makes no variable in the scopes it finds, and of the statements only
declarations and workflow definitions do. A block, a loop or a call has its
variables in scopes of their own.
-/

set_option autoImplicit false

namespace FlowScript

open RunM

namespace ScopeStack

/-- The names of all variables, from the outermost scope inwards. -/
def names (stack : ScopeStack) : List (List String) := stack.levels.map Dictionary.keys

theorem names_eq_outlines (stack : ScopeStack) :
    stack.names = (stack.outer.map fun scope => scope.outline.names).reverse ++
      [stack.current.outline.names] := by
  simp [names, levels_eq, Scope.outline, Function.comp_def]

theorem length_names (stack : ScopeStack) : stack.names.length = stack.depth := by
  rw [names, List.length_map, length_levels]

/-- What is done above a new scope makes no variables below it. -/
theorem Above.names_take {before after : ScopeStack} {kind : ScopeKind}
    (above : (before.push kind).Above after) :
    after.names.take before.depth = before.names := by
  have cut : (after.truncate (before.depth + 1)).names = after.names.take (before.depth + 1) := by
    rw [names, levels_truncate after (Nat.succ_pos _), List.map_take, names]
  have outlines := above.balanced.outer
  rw [depth_push, scopes_push, scopes, List.map_cons] at outlines
  have below : (after.truncate (before.depth + 1)).outer.map (fun scope => scope.outline.names) =
      before.scopes.map fun scope => scope.outline.names := by
    have outer := congrArg (List.map Scope.Outline.names) outlines
    simpa [List.map_map, Function.comp_def, scopes] using outer
  have length : (before.scopes.map fun scope => scope.outline.names).reverse.length =
      before.depth := by
    simp [length_scopes]
  calc after.names.take before.depth
      = (after.names.take (before.depth + 1)).take before.depth := by
        rw [List.take_take, Nat.min_eq_left (Nat.le_succ _)]
    _ = (before.scopes.map fun scope => scope.outline.names).reverse := by
        rw [← cut, names_eq_outlines, below, List.take_left' length]
    _ = before.names := by
        simp [names_eq_outlines, scopes]

theorem names_rebind {stack changed : ScopeStack} {name : String} {value : Value}
    (rebound : stack.rebind name value = .ok changed) : changed.names = stack.names := by
  have outlines := congrArg (List.map Scope.Outline.names)
    (rebindIn?_outline (rebind_eq_ok rebound).1)
  simp only [scopes, List.map_cons, List.map_map, List.cons.injEq] at outlines
  rw [names_eq_outlines, names_eq_outlines, outlines.1]
  exact congrArg (fun rows => rows.reverse ++ _) outlines.2

end ScopeStack

/-! ## Modest computations -/

/-- However it ends, the computation makes no variable in a scope that it found. -/
structure Modest {α : Type} (action : RunM α) : Prop where
  balances : Balances action
  names : ∀ machine, After action.run machine fun _ final =>
    final.scopes.depth = machine.scopes.depth → final.scopes.names = machine.scopes.names

namespace Modest

variable {α β : Type}

theorem of_quiet {action : RunM α} (quiet : Quiet action) : Modest action :=
  ⟨.of_quiet quiet, fun machine _ => congrArg ScopeStack.names (quiet machine)⟩

theorem returned {action : RunM α} {machine final : Machine} {value : α} (modest : Modest action)
    (returns : action.Returns machine value final) :
    final.scopes.names = machine.scopes.names := by
  have balanced := (modest.balances machine).of_run returns
  have named := modest.names machine
  exact named.of_run returns (balanced.2 rfl).depth

theorem bind {first : RunM α} {next : α → RunM β} (firstModest : Modest first)
    (nextModest : ∀ value, Modest (next value)) : Modest (first >>= next) := by
  refine ⟨.bind firstModest.balances fun value => (nextModest value).balances, fun machine => ?_⟩
  have balanced := firstModest.balances machine
  have named := firstModest.names machine
  unfold After at balanced named ⊢
  rw [run_bind_eq]
  cases ran : first.run.run machine with
  | mk outcome middle =>
      rw [ran] at balanced named
      cases outcome with
      | ok value =>
          have depth := (balanced.2 rfl).depth
          intro same
          exact ((nextModest value).names middle (same.trans depth.symm)).trans (named depth)
      | error => exact named

theorem composes : Sequences fun {_} action _ => Modest action :=
  .of_plain (fun plain => of_quiet plain.quiet) fun first next => bind first next

theorem setReturn (value : Value) : Modest (RunM.setReturn value) := by
  refine ⟨.modifyScopes fun stack => stack.balanced_setReturn value, fun machine _ => ?_⟩
  exact congrArg (List.map Dictionary.keys) (machine.scopes.levels_setReturn value)

theorem assignVariable (name : Identifier) (source : Value) (span : Span) :
    Modest (FlowScript.assignVariable name source span) := by
  refine .bind (composes.resolve _ _) fun current =>
    .bind (composes.onStoreAt _ (.assign current source)) fun value =>
      ⟨.onScopesAt fun _ _ rebound => ScopeStack.balanced_rebind rebound, fun machine => ?_⟩
  unfold After
  rw [run_onScopesAt]
  cases rebound : machine.scopes.rebind name.name value with
  | ok changed => exact fun _ => ScopeStack.names_rebind rebound
  | error cause => exact fun _ => rfl

/-- Work in a scope of its own. -/
theorem names_left {before after : ScopeStack} {kind : ScopeKind}
    (above : (before.push kind).Above after) :
    (after.truncate before.depth).names = before.names := by
  rw [← above.names_take, ScopeStack.names, ScopeStack.levels_truncate _ before.depth_pos,
    List.map_take, ScopeStack.names]

theorem runBlock {execute : Statement → RunM Unit}
    (executes : ∀ statement, Balances (execute statement)) (kind : ScopeKind) (block : Block) :
    Modest (FlowScript.runBlock execute kind block) := by
  refine ⟨balances_runBlock executes kind block, fun machine => ?_⟩
  have inside := balances_executeAll executes block.statements (machine.entering kind)
  unfold After at inside ⊢
  rw [run_runBlock]
  cases ran : (executeAll execute block.statements).run.run (machine.entering kind) with
  | mk outcome final =>
      rw [ran] at inside
      have above : (machine.scopes.push kind).Above final.scopes := inside.1
      have deeper := above.depth_le
      rw [ScopeStack.depth_push] at deeper
      cases outcome with
      | ok =>
          intro _
          have depth : final.scopes.depth = machine.scopes.depth + 1 :=
            (inside.2 rfl).depth.trans (machine.scopes.depth_push kind)
          have positive := machine.scopes.depth_pos
          have popped := final.scopes.levels_pop (by omega)
          rw [depth, Nat.add_sub_cancel] at popped
          rw [← above.names_take, ScopeStack.names, ScopeStack.names, ← List.map_take, ← popped]
      | error interruption =>
          dsimp only
          split
          · exact fun _ => names_left above
          · intro same
            omega

/-- A call keeps its variables in its own scope. If it is abandoned, that scope and
those above it stay behind. -/
theorem after_invoke {execute : Statement → RunM Unit}
    (executes : ∀ statement, Balances (execute statement)) (definition : Workflow)
    (arguments : CallArguments) (called : Span) (machine : Machine) :
    After (invoke execute definition arguments called).run machine fun outcome final =>
      (settled outcome → final.scopes.names = machine.scopes.names) ∧
        (¬settled outcome → (machine.scopes.push .function).Above final.scopes) := by
  obtain ⟨announced, announces, scopes⟩ : ∃ announced,
      (announceCall definition).Returns machine () announced ∧
        announced.scopes = machine.scopes := ⟨_, rfl, rfl⟩
  rw [invoke_eq]
  unfold After
  rw [announces.run_bind]
  have inside := balances_callBody executes definition arguments called
    (announced.entering .function)
  unfold After at inside
  rw [run_runCall]
  cases ran : (callBody execute definition arguments called).run.run
      (announced.entering .function) with
  | mk outcome final =>
      rw [ran] at inside
      have above : (machine.scopes.push .function).Above final.scopes := scopes ▸ inside.1
      have left : (final.leaving announced.scopes.depth).scopes.names = machine.scopes.names := by
        rw [scopes]
        exact names_left above
      cases outcome with
      | ok => exact ⟨fun _ => left, fun impossible => absurd rfl impossible⟩
      | error interruption =>
          cases interruption with
          | failed fault => exact ⟨fun _ => left, fun impossible => absurd rfl impossible⟩
          | expired | exhausted => exact ⟨fun impossible => (by cases impossible), fun _ => above⟩

theorem awaitInvocation {execute : Context → Statement → RunM Unit}
    (executes : ∀ context statement, Balances (execute context statement)) (context : Context)
    (definition : Workflow) (arguments : CallArguments) (called : Span) (timeout : Duration)
    (location : Span) :
    Modest (FlowScript.awaitInvocation execute context definition arguments called timeout
      location) := by
  refine ⟨balances_awaitInvocation executes context definition arguments called timeout location,
    fun machine => ?_⟩
  have inside := after_invoke (executes (context.awaiting machine.now timeout)) definition
    arguments called machine
  have answers : Quiet (answerTimeout definition location) :=
    .bind (.report _ _ _) fun _ => .onStore _
  unfold After at inside ⊢
  rw [run_awaitInvocation]
  cases ran : (invoke (execute (context.awaiting machine.now timeout)) definition arguments
      called).run.run machine with
  | mk outcome final =>
      rw [ran] at inside
      obtain ⟨ends, abandoned⟩ := inside
      cases outcome with
      | ok => exact fun _ => ends rfl
      | error interruption =>
          dsimp only
          split
          · next expired =>
              subst expired
              intro _
              exact (congrArg ScopeStack.names (answers (final.leaving machine.scopes.depth))).trans
                (names_left (abandoned (by simp [settled, Interruption.isFailure])))
          · intro (same : final.scopes.depth = machine.scopes.depth)
            by_cases failed : settled (.error interruption : Except Interruption Value)
            · exact ends failed
            · have deeper : _ ≤ final.scopes.depth := (abandoned failed).depth_le
              rw [ScopeStack.depth_push] at deeper
              omega

theorem awaitValue {execute : Context → Statement → RunM Unit}
    (executes : ∀ context statement, Balances (execute context statement)) (context : Context)
    (awaited : Value) (operand : Expr) (timeout : Duration) (location : Span) :
    Modest (FlowScript.awaitValue execute context awaited operand timeout location) := by
  unfold FlowScript.awaitValue
  split
  · exact awaitInvocation executes context _ _ _ timeout location
  · exact awaitInvocation executes context _ _ _ timeout location
  · split
    · exact .of_quiet (quiet_awaitHost context _ _ timeout location)
    · exact composes.fail _ _
  · exact composes.fail _ _

theorem straight : Straight Eq fun {_} action _ => Modest action where
  toComposes := composes.toComposes
  deadlines pair := ⟨_, pair.symm⟩
  setReturn := setReturn
  assignVariable := assignVariable
  wait millis _ := .of_quiet (.wait _ millis)

end Modest

/-! ## Expressions and statements -/

theorem modest_evaluate (depth : Nat) (context : Context) (expr : Expr) :
    Modest (evaluate depth context expr) := by
  induction depth generalizing context expr with
  | zero => exact .of_quiet (.throw .exhausted)
  | succ depth ih =>
      have executes := fun context => (evaluation_balances depth context).2
      exact Modest.straight.evaluate_step (ih context) rfl (.awaitValue executes context) expr

namespace Modest

variable (depth : Nat) (context : Context)

theorem runBranch (block : Block) : Modest (FlowScript.runBranch depth context block) :=
  .bind (.runBlock (evaluation_balances depth context).2 .block block) fun _ => composes.pure ()

theorem runBranches (branches : List Conditional) :
    Modest (FlowScript.runBranches depth context branches) :=
  @Composes.runFirstBranch _ composes.toComposes _ (FlowScript.testCondition depth context) _
    (FlowScript.runBranch depth context) branches
    (fun _ _ => straight.condition (modest_evaluate depth context) _)
    fun _ _ => runBranch depth context _

theorem runRounds (body : Block) (rounds : Nat) :
    Modest (FlowScript.runRounds depth context body rounds) :=
  @Composes.repeatUntilSignal _ composes.toComposes _
    (FlowScript.runBlock (execute depth context) .loop body)
    (.runBlock (evaluation_balances depth context).2 .loop body) rounds

end Modest

/-! ## Statements that introduce a variable -/

/-- The variable that a statement introduces, with the kind it is introduced with. -/
def Statement.introduced? : Statement → Option (String × Kind)
  | .declaration name typeName _ _ => (Kind.ofName? typeName.name).map fun kind => (name.name, kind)
  | .workflow definition => some (definition.name.name, .workflow)
  | _ => none

def evaluateInitializer (depth : Nat) (context : Context) : Option Expr → RunM Value
  | some value => evaluate depth context value
  | none => pure .void

/-- The value of a declaration, made before its variable is. -/
def declaredValue (depth : Nat) (context : Context) (statement : Statement)
    (typeName : Identifier) (value : Option Expr) : RunM Value := do
  announce context statement
  let kind ← resolveKind typeName
  let initializer ← evaluateInitializer depth context value
  let now ← currentInstant context
  onStoreAt statement.span (Value.construct now kind initializer)

theorem execute_declaration (depth : Nat) (context : Context) (name typeName : Identifier)
    (value : Option Expr) (span : Span) :
    execute (depth + 1) context (.declaration name typeName value span) = (do
      let value ← declaredValue depth context (.declaration name typeName value span) typeName value
      onScopesAt name.span (·.declare name.name value)) := by
  simp only [declaredValue, bind_assoc]
  cases value <;> rfl

theorem declaredValue_modest (depth : Nat) (context : Context) (statement : Statement)
    (typeName : Identifier) (value : Option Expr) :
    Modest (declaredValue depth context statement typeName value) := by
  have composes := Modest.composes
  refine .bind (composes.report _ _ _) fun _ => .bind (composes.resolveKind _) fun _ =>
    .bind ?_ fun initializer => .bind (composes.currentInstant context) fun now =>
      composes.onStoreAt _ (.construct now _ initializer)
  cases value with
  | some value => exact modest_evaluate depth context value
  | none => exact composes.pure _

theorem declaredValue_steady (depth : Nat) (context : Context) (statement : Statement)
    (typeName : Identifier) (value : Option Expr) :
    Steady (declaredValue depth context statement typeName value) := by
  have composes := Steady.composes
  refine .bind (composes.report _ _ _) fun _ => .bind (composes.resolveKind _) fun _ =>
    .bind ?_ fun initializer => .bind (composes.currentInstant context) fun now =>
      composes.onStoreAt _ (.construct now _ initializer)
  cases value with
  | some value => exact (evaluation_steady depth context).1 value
  | none => exact composes.pure _

theorem declaredValue_kind {depth : Nat} {context : Context} {statement : Statement}
    {typeName : Identifier} {value : Option Expr} {machine final : Machine} {result : Value}
    (returns : (declaredValue depth context statement typeName value).Returns machine result
      final) :
    ∃ kind, Kind.ofName? typeName.name = some kind ∧ (result.kind = kind ∨ result.isError) := by
  obtain ⟨_, _, -, returns⟩ := RunM.Returns.steps returns
  obtain ⟨kind, _, resolved, returns⟩ := returns.steps
  obtain ⟨initializer, _, -, returns⟩ := returns.steps
  obtain ⟨now, _, -, constructs⟩ := returns.steps
  obtain ⟨store, ran, -⟩ := constructs.onStoreAt
  refine ⟨kind, ?_, (Value.construct_kind now kind initializer _).of_run ran result rfl⟩
  unfold resolveKind at resolved
  split at resolved
  · next found =>
      cases resolved
      exact found
  · cases resolved

/-- How a statement that introduces a variable does so: it makes a value of the kind or an
error, and then declares the variable. -/
theorem execute_introduces (depth : Nat) (context : Context) {statement : Statement}
    {name : String} {kind : Kind} (introduced : statement.introduced? = some (name, kind)) :
    ∃ (prepare : RunM Value) (location : Span),
      execute (depth + 1) context statement = (do
        let value ← prepare
        onScopesAt location (·.declare name value)) ∧
      Modest prepare ∧ Steady prepare ∧ ∀ {machine final : Machine} {value : Value},
        prepare.Returns machine value final → value.kind = kind ∨ value.isError := by
  cases statement with
  | declaration identifier typeName value span =>
      obtain ⟨found, known, same⟩ := Option.map_eq_some_iff.mp introduced
      cases same
      refine ⟨_, _, execute_declaration depth context identifier typeName value span,
        declaredValue_modest depth context _ typeName value,
        declaredValue_steady depth context _ typeName value, fun returns => ?_⟩
      obtain ⟨kind, resolved, holds⟩ := declaredValue_kind returns
      cases known.symm.trans resolved
      exact holds
  | workflow definition =>
      cases introduced
      refine ⟨do
        announce context (.workflow definition)
        pure (.workflow definition), definition.name.span, rfl,
        .bind (Modest.composes.report _ _ _) fun _ => Modest.composes.pure _,
        .bind (Steady.composes.report _ _ _) fun _ => Steady.composes.pure _, fun returns => ?_⟩
      obtain ⟨_, _, -, answered⟩ := RunM.Returns.steps returns
      obtain ⟨rfl, -⟩ := answered.of_pure
      exact .inl rfl
  | importing | assignment | delay | returning | raising | breaking | expression | branch | loop =>
      cases introduced

theorem modest_execute (depth : Nat) (context : Context) {statement : Statement}
    (introduced : statement.introduced? = none) : Modest (execute depth context statement) := by
  cases depth with
  | zero => exact .of_quiet (.throw .exhausted)
  | succ depth =>
      have announces : Modest (announce context statement) := .of_quiet (.report _ _ _)
      cases statement with
      | importing path span => exact .bind announces fun _ => .of_quiet (.report _ _ _)
      | declaration identifier typeName value span =>
          have unknown := Option.map_eq_none_iff.mp introduced
          have fails : execute (depth + 1) context (.declaration identifier typeName value span) =
              (announce context (.declaration identifier typeName value span) >>= fun _ =>
                fail (.unknownType typeName.name) typeName.span) := by
            rw [execute_declaration]
            simp only [declaredValue, resolveKind, unknown, bind_assoc]
            rfl
          rw [fails]
          exact .bind announces fun _ => .of_quiet (.throw _)
      | assignment | delay | returning | raising | expression =>
          rw [execute_value depth context rfl]
          exact .bind announces fun _ =>
            .bind (modest_evaluate depth context _) fun value => Modest.straight.finish rfl _ value
      | breaking span =>
          refine .bind announces fun _ => ⟨.modifyScopes fun stack => stack.balanced_setFlow _,
            fun machine _ => ?_⟩
          exact congrArg (List.map Dictionary.keys) (machine.scopes.levels_setFlow _)
      | branch first others otherwise span =>
          refine .bind announces fun _ =>
            .bind (.runBranches depth context (first :: others)) fun chosen => ?_
          change Modest (runOtherwise depth context otherwise chosen)
          unfold runOtherwise
          split
          · exact .runBranch depth context _
          · exact .of_quiet (.pure ())
      | loop body span =>
          refine .bind announces fun _ =>
            .bind (.runRounds depth context body context.maxLoopCount) fun signalled => ?_
          split
          · exact .of_quiet (.pure ())
          · exact .of_quiet (.report _ _ _)
      | workflow definition => cases introduced

end FlowScript
