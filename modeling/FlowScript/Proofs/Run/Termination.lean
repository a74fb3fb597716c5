import FlowScript.Proofs.Run.Plain
import FlowScript.Proofs.Storage.Reach
import FlowScript.Proofs.Storage.WalkDepth
import FlowScript.Proofs.Syntax.AwaitFree

/-!
# Scripts without `await` end

Only `await` runs statements that are not part of the statement being executed, so
without it the nesting of evaluation is bounded by the syntax. From some depth on
the depth makes no difference, and nothing is ever interrupted.
-/

set_option autoImplicit false

namespace FlowScript

open RunM

/-! ## Computations that end by themselves -/

/-- Both computations are the same, and they end with a value or a failure. -/
structure SettlesAs {α : Type} (left right : RunM α) : Prop where
  same : left = right
  ends : ∀ machine, After left.run machine fun outcome _ => settled outcome

namespace SettlesAs

variable {α β : Type}

theorem bind {left right : RunM α} {leftNext rightNext : α → RunM β}
    (first : SettlesAs left right)
    (next : ∀ value, SettlesAs (leftNext value) (rightNext value)) :
    SettlesAs (left >>= leftNext) (right >>= rightNext) := by
  have nextSame : leftNext = rightNext := funext fun value => (next value).same
  constructor
  · rw [first.same, nextSame]
  · intro machine
    rw [after_run_bind]
    apply (first.ends machine).imp
    intro outcome middle ends
    cases outcome with
    | ok value => exact (next value).ends middle
    | error => exact ends

theorem composes : Sequences (fun {_} => SettlesAs) :=
  .of_plain (fun plain => ⟨rfl, fun machine => (plain.timeless machine).1⟩) bind

theorem modifyScopes (change : ScopeStack → ScopeStack) :
    SettlesAs (RunM.modifyScopes change) (RunM.modifyScopes change) :=
  ⟨rfl, fun _ => rfl⟩

theorem onScopesAt (location : Span) (change : ScopeStack → Except Cause ScopeStack) :
    SettlesAs (RunM.onScopesAt location change) (RunM.onScopesAt location change) := by
  refine ⟨rfl, fun machine => ?_⟩
  unfold After
  rw [run_onScopesAt]
  cases change machine.scopes <;> rfl

/-- Without deadlines nothing interrupts a wait. -/
theorem wait (millis : Nat) :
    SettlesAs (FlowScript.wait [] millis) (FlowScript.wait [] millis) :=
  ⟨rfl, fun _ => rfl⟩

theorem restoringScopes {left right : RunM α} (settles : SettlesAs left right) :
    SettlesAs (FlowScript.restoringScopes left) (FlowScript.restoringScopes right) := by
  refine ⟨by rw [settles.same], fun machine => ?_⟩
  have ends := settles.ends machine
  unfold After at ends ⊢
  rw [run_restoringScopes]
  cases ran : left.run.run machine with
  | mk outcome final =>
      rw [ran] at ends
      cases outcome <;> exact ends

theorem runBlock {left right : Statement → RunM Unit} (kind : ScopeKind) {block : Block}
    (executes : ∀ statement ∈ block.statements, SettlesAs (left statement) (right statement)) :
    SettlesAs (FlowScript.runBlock left kind block) (FlowScript.runBlock right kind block) :=
  bind (restoringScopes (bind (modifyScopes _) fun _ => composes.executeAll executes)) fun _ =>
    bind composes.getScopes fun _ => bind (modifyScopes _) fun _ => composes.pure _

/-- Without deadlines all straight-line work ends by itself. -/
theorem straight : Straight (fun left right => left = right ∧ left.deadlines = [])
    (fun {_} => SettlesAs) where
  toComposes := composes.toComposes
  deadlines pair := ⟨_, pair.1.symm⟩
  setReturn _ := modifyScopes _
  assignVariable name source span := bind (composes.resolve _ _) fun current =>
    bind (composes.onStoreAt _ (.assign current source)) fun _ => onScopesAt _ _
  wait millis pair := by
    obtain ⟨rfl, unhurried⟩ := pair
    exact unhurried ▸ wait millis

end SettlesAs

/-! ## Depths that are enough -/

/-- From the depth on, evaluating the expression does not depend on the depth. -/
def Expr.SettlesFrom (context : Context) (depth : Nat) (expr : Expr) : Prop :=
  ∀ more ≥ depth, SettlesAs (evaluate more context expr) (evaluate depth context expr)

def Statement.SettlesFrom (context : Context) (depth : Nat) (statement : Statement) : Prop :=
  ∀ more ≥ depth, SettlesAs (execute more context statement) (execute depth context statement)

variable {context : Context}

theorem Expr.SettlesFrom.mono {small large : Nat} {expr : Expr}
    (settles : expr.SettlesFrom context small) (le : small ≤ large) :
    expr.SettlesFrom context large := by
  intro more enough
  have here := settles more (Nat.le_trans le enough)
  exact ⟨here.same.trans (settles large le).same.symm, here.ends⟩

theorem Statement.SettlesFrom.mono {small large : Nat} {statement : Statement}
    (settles : statement.SettlesFrom context small) (le : small ≤ large) :
    statement.SettlesFrom context large := by
  intro more enough
  have here := settles more (Nat.le_trans le enough)
  exact ⟨here.same.trans (settles large le).same.symm, here.ends⟩

/-- Parts that each have a depth that is enough have one in common. -/
theorem exists_common_depth {α : Type} (holds : Nat → α → Prop)
    (mono : ∀ {item : α} {small large : Nat}, holds small item → small ≤ large → holds large item)
    (items : List α) (each : ∀ item ∈ items, ∃ depth, holds depth item) :
    ∃ depth, ∀ item ∈ items, holds depth item := by
  induction items with
  | nil => exact ⟨0, by simp⟩
  | cons item rest ih =>
      rw [List.forall_mem_cons] at each
      obtain ⟨first, firstHolds⟩ := each.1
      obtain ⟨others, othersHold⟩ := ih each.2
      refine ⟨max first others, List.forall_mem_cons.mpr ⟨?_, ?_⟩⟩
      · exact mono firstHolds (Nat.le_max_left _ _)
      · exact fun other member => mono (othersHold other member) (Nat.le_max_right _ _)

theorem exists_common_expression_depth {α : Type} (part : α → Expr) (items : List α)
    (each : ∀ item ∈ items, ∃ depth, (part item).SettlesFrom context depth) :
    ∃ depth, ∀ item ∈ items, (part item).SettlesFrom context depth :=
  exists_common_depth (fun depth item => (part item).SettlesFrom context depth)
    Expr.SettlesFrom.mono items each

theorem exists_common_statement_depth (statements : List Statement)
    (each : ∀ statement ∈ statements, ∃ depth, statement.SettlesFrom context depth) :
    ∃ depth, ∀ statement ∈ statements, statement.SettlesFrom context depth :=
  exists_common_depth (fun depth statement => statement.SettlesFrom context depth)
    Statement.SettlesFrom.mono statements each

theorem exists_common_block_depth (blocks : List Block)
    (each : ∀ block ∈ blocks, ∃ depth, ∀ statement ∈ block.statements,
      statement.SettlesFrom context depth) :
    ∃ depth, ∀ block ∈ blocks, ∀ statement ∈ block.statements,
      statement.SettlesFrom context depth :=
  exists_common_depth (fun depth (block : Block) => ∀ statement ∈ block.statements,
      statement.SettlesFrom context depth)
    (fun settles le statement member => (settles statement member).mono le) blocks each

theorem Expr.settlesFrom_succ (depth : Nat) {expr : Expr}
    (step : ∀ more ≥ depth,
      SettlesAs (evaluate (more + 1) context expr) (evaluate (depth + 1) context expr)) :
    ∃ depth, expr.SettlesFrom context depth := by
  refine ⟨depth + 1, fun more enough => ?_⟩
  cases more with
  | zero => exact absurd enough (Nat.not_succ_le_zero depth)
  | succ more => exact step more (Nat.le_of_succ_le_succ enough)

theorem Statement.settlesFrom_succ (depth : Nat) {statement : Statement}
    (step : ∀ more ≥ depth,
      SettlesAs (execute (more + 1) context statement) (execute (depth + 1) context statement)) :
    ∃ depth, statement.SettlesFrom context depth := by
  refine ⟨depth + 1, fun more enough => ?_⟩
  cases more with
  | zero => exact absurd enough (Nat.not_succ_le_zero depth)
  | succ more => exact step more (Nat.le_of_succ_le_succ enough)

theorem Expr.AwaitFree.settles {expr : Expr} (awaitFree : expr.AwaitFree) (context : Context) :
    ∃ depth, expr.SettlesFrom context depth := by
  have composes := SettlesAs.composes
  induction awaitFree with
  | @literal value span =>
      apply Expr.settlesFrom_succ 0
      intro more _
      exact composes.onStore (.scalar (.ofLiteral value))
  | @path name =>
      apply Expr.settlesFrom_succ 0
      intro more _
      exact composes.resolve name.head name.tail
  | @call callee arguments argumentsSpan span _ ih =>
      obtain ⟨depth, parts⟩ := exists_common_expression_depth (·.value) arguments ih
      apply Expr.settlesFrom_succ depth
      intro more enough
      exact composes.bind (composes.resolve _ _) fun function =>
        composes.bind (composes.evaluateArguments (fun argument member =>
          parts argument member more enough) _) fun _ =>
          composes.callValue function callee _ span
  | @array elements span _ ih =>
      obtain ⟨depth, parts⟩ := exists_common_expression_depth id elements ih
      apply Expr.settlesFrom_succ depth
      intro more enough
      exact composes.bind (composes.evaluateElements fun element member =>
        parts element member more enough) fun _ => composes.onStore (.array _)
  | @dictionary entries span _ ih =>
      obtain ⟨depth, parts⟩ := exists_common_expression_depth (·.value) entries ih
      apply Expr.settlesFrom_succ depth
      intro more enough
      exact composes.evaluateDictionary (fun entry member => parts entry member more enough) []
  | unary _ ih =>
      obtain ⟨depth, operand⟩ := ih
      apply Expr.settlesFrom_succ depth
      intro more enough
      exact composes.bind (operand more enough) fun _ => composes.onStoreAt _ (.unary _ _)
  | @chain first operations span _ _ firstIH operandsIH =>
      obtain ⟨firstDepth, firstSettles⟩ := firstIH
      obtain ⟨operandsDepth, operandsSettle⟩ :=
        exists_common_expression_depth (·.operand) operations operandsIH
      have firstHere := firstSettles.mono (Nat.le_max_left firstDepth operandsDepth)
      apply Expr.settlesFrom_succ (max firstDepth operandsDepth)
      intro more enough
      exact composes.bind (firstHere more enough) fun value =>
        composes.applyOperations (fun operation member =>
          (operandsSettle operation member).mono (Nat.le_max_right _ _) more enough) _ value
  | attempt _ ih =>
      obtain ⟨depth, operand⟩ := ih
      apply Expr.settlesFrom_succ depth
      intro more enough
      refine composes.bind (operand more enough) fun value => ?_
      dsimp only
      split
      · exact composes.bind (composes.report _ _ _) fun _ =>
          composes.bind (SettlesAs.modifyScopes _) fun _ => composes.pure value
      · exact composes.pure value

theorem Statement.AwaitFree.settles {statement : Statement} (awaitFree : statement.AwaitFree)
    {context : Context} (unhurried : context.deadlines = []) :
    ∃ depth, statement.SettlesFrom context depth := by
  have composes := SettlesAs.composes
  have straight := SettlesAs.straight
  have announces : ∀ statement, SettlesAs (announce context statement)
      (announce context statement) := fun statement => composes.report _ _ _
  induction awaitFree with
  | importing =>
      apply Statement.settlesFrom_succ 0
      intro more _
      exact composes.bind (announces _) fun _ => composes.report _ _ _
  | @declaration name typeName value span parts =>
      have declares : ∀ kind initializer, SettlesAs
          (declareVariable context name kind span initializer)
          (declareVariable context name kind span initializer) := fun _ _ =>
        composes.bind (composes.currentInstant context) fun _ =>
          composes.bind (composes.onStoreAt _ (.construct _ _ _)) fun _ =>
            SettlesAs.onScopesAt _ _
      cases value with
      | none =>
          apply Statement.settlesFrom_succ 0
          intro more _
          exact composes.bind (announces _) fun _ =>
            composes.bind (composes.resolveKind typeName) fun kind =>
              composes.bind (composes.pure Value.void) (declares kind)
      | some value =>
          obtain ⟨depth, settles⟩ := (parts value rfl).settles context
          apply Statement.settlesFrom_succ depth
          intro more enough
          exact composes.bind (announces _) fun _ =>
            composes.bind (composes.resolveKind typeName) fun kind =>
              composes.bind (settles more enough) (declares kind)
  | assignment free | delay free | returning free | raising free | expression free =>
      obtain ⟨depth, settles⟩ := free.settles context
      apply Statement.settlesFrom_succ depth
      intro more enough
      rw [execute_value more context rfl, execute_value depth context rfl]
      exact composes.bind (announces _) fun _ =>
        composes.bind (settles more enough) (straight.finish ⟨rfl, unhurried⟩ _)
  | breaking =>
      apply Statement.settlesFrom_succ 0
      intro more _
      exact composes.bind (announces _) fun _ => SettlesAs.modifyScopes _
  | @branch first others otherwise span conditions _ _ bodiesIH otherwiseIH =>
      obtain ⟨conditionsDepth, conditionsSettle⟩ := exists_common_expression_depth (·.condition)
        (first :: others) fun branch member => (conditions branch member).settles context
      obtain ⟨bodiesDepth, bodiesSettle⟩ := exists_common_block_depth
        ((first :: others).map (·.body) ++ otherwise.toList) (by
          intro block member
          rcases List.mem_append.mp member with inBranches | last
          · obtain ⟨branch, isBranch, rfl⟩ := List.mem_map.mp inBranches
            exact exists_common_statement_depth _ (bodiesIH branch isBranch)
          · exact exists_common_statement_depth _
              (otherwiseIH block (Option.mem_toList.mp last)))
      apply Statement.settlesFrom_succ (max conditionsDepth bodiesDepth)
      intro more enough
      have runs : ∀ block ∈ (first :: others).map (·.body) ++ otherwise.toList,
          SettlesAs (runBranch more context block)
            (runBranch (max conditionsDepth bodiesDepth) context block) := fun block member =>
        composes.bind (.runBlock .block fun statement inBlock =>
          (bodiesSettle block member statement inBlock).mono (Nat.le_max_right _ _) more enough)
          fun _ => composes.pure ()
      have tests : ∀ branch ∈ first :: others,
          SettlesAs (testCondition more context branch.condition)
            (testCondition (max conditionsDepth bodiesDepth) context branch.condition) :=
        fun branch member => composes.bind
          ((conditionsSettle branch member).mono (Nat.le_max_left _ _) more enough) fun _ =>
            composes.onStoreAt _ (.truth _)
      refine composes.bind (announces _) fun _ => composes.bind (composes.runFirstBranch tests
        fun branch member => runs branch.body
          (List.mem_append_left _ (List.mem_map_of_mem member))) fun chosen => ?_
      split
      · exact runs _ (by simp)
      · exact composes.pure ()
  | @loop body span _ ih =>
      obtain ⟨depth, parts⟩ := exists_common_statement_depth body.statements ih
      apply Statement.settlesFrom_succ depth
      intro more enough
      have rounds := composes.repeatUntilSignal (.runBlock .loop fun statement member =>
        parts statement member more enough) context.maxLoopCount
      refine composes.bind (announces _) fun _ => composes.bind rounds fun signalled => ?_
      split
      · exact composes.pure ()
      · exact composes.report _ _ _
  | workflow =>
      apply Statement.settlesFrom_succ 0
      intro more _
      exact composes.bind (announces _) fun _ => SettlesAs.onScopesAt _ _

/-! ## Whole runs -/

theorem Script.AwaitFree.settles {script : Script} (awaitFree : script.AwaitFree)
    {context : Context} (unhurried : context.deadlines = []) :
    ∃ depth, ∀ statement ∈ script.statements, statement.SettlesFrom context depth :=
  exists_common_statement_depth script.statements
    fun statement member => (awaitFree statement member).settles unhurried

theorem runProgram_settles {program : Program} {options : RunOptions} {bound : Nat}
    (settles : ∀ statement ∈ program.script.statements,
      statement.SettlesFrom (options.context program) bound)
    {depth : Nat} (enough : bound ≤ depth) (instanceId : Int64) :
    runProgram options depth program instanceId =
        runProgram options bound program instanceId ∧
      settled (runProgram options depth program instanceId).1 := by
  have composes := SettlesAs.composes
  have whole := composes.bind (composes.executeAll fun statement member =>
    settles statement member depth enough) fun _ =>
      composes.bind composes.getScopes fun scopes =>
        composes.pure scopes.returnValue?
  have ran := congrArg
    (fun action : RunM (Option Value) => action.run.run (initialMachine instanceId)) whole.same
  exact ⟨ran, whole.ends (initialMachine instanceId)⟩

theorem settled_iff {α : Type} {outcome : Except Interruption α} :
    settled outcome ↔ (∃ value, outcome = .ok value) ∨ ∃ fault, outcome = .error (.failed fault) := by
  cases outcome with
  | ok value => simp [settled]
  | error interruption => cases interruption <;> simp [settled, Interruption.isFailure]

/-- A script without `await` ends, whatever the cap on loops: from some depth of
nesting on its run is the same, and it completes or fails. No value that it makes
on the way contains itself: on every machine the run reaches, copying, showing and
comparing a value come to an end before they would be cut off. -/
theorem awaitFree_run_terminates (program : Program) (awaitFree : program.script.AwaitFree)
    (options : RunOptions) (instanceId : Int64) :
    (∃ bound, ∀ depth ≥ bound,
      runProgram options depth program instanceId =
        runProgram options bound program instanceId ∧
      ((∃ value, (runProgram options depth program instanceId).1 = .ok value) ∨
        ∃ fault, (runProgram options depth program instanceId).1 = .error (.failed fault))) ∧
    ∀ (depth : Nat) (machine : Machine),
      (Run.mk options depth program instanceId).Reaches machine →
      ∀ value : Value, value.Within (fun _ => True) machine.store.size →
        machine.store.WalksEnd value := by
  constructor
  · have unhurried : (options.context program).deadlines = [] := rfl
    obtain ⟨bound, settles⟩ := awaitFree.settles unhurried
    refine ⟨bound, fun depth enough => ?_⟩
    obtain ⟨same, ends⟩ := runProgram_settles settles enough instanceId
    exact ⟨same, settled_iff.mp ends⟩
  · intro depth machine reached value within
    exact reached.sound.store.walksEnd within

/-- Pushes an array into itself again and again: `a : array = [];` and then
`repeat { a.push(a); }`. -/
def selfPushing : Program :=
  let name (text : String) : Identifier := ⟨text, .origin⟩
  let array : Path := ⟨name "a", [], .origin⟩
  let push : Path := ⟨name "a", [name "push"], .origin⟩
  let call : Expr := .call push [⟨none, .path array, .origin⟩] .origin .origin
  { file := ""
    source := []
    script := ⟨[.declaration (name "a") (name "array") (some (.array [] .origin)) .origin,
      .loop ⟨[.expression call .origin], .origin⟩ .origin], .origin⟩ }

theorem selfPushing_awaitFree : selfPushing.script.AwaitFree := by
  intro statement member
  simp only [selfPushing, List.mem_cons, List.not_mem_nil, or_false] at member
  rcases member with rfl | rfl
  · apply Statement.AwaitFree.declaration
    intro expr same
    cases same
    exact .array (by simp)
  · apply Statement.AwaitFree.loop
    intro statement member
    cases List.mem_singleton.mp member
    apply Statement.AwaitFree.expression
    apply Expr.AwaitFree.call
    intro argument member
    cases List.mem_singleton.mp member
    exact .path

/-- The array gets larger with every round, and yet the run ends. -/
theorem selfPushing_terminates :
    let options : RunOptions := ⟨Host.none, 1000, ⟨0, 0⟩⟩
    (∃ bound, ∀ depth ≥ bound,
      runProgram options depth selfPushing 7 = runProgram options bound selfPushing 7 ∧
      ((∃ value, (runProgram options depth selfPushing 7).1 = .ok value) ∨
        ∃ fault, (runProgram options depth selfPushing 7).1 = .error (.failed fault))) ∧
    ∀ value : Value,
      value.Within (fun _ => True) (Run.mk options 10 selfPushing 7).final.store.size →
      (Run.mk options 10 selfPushing 7).final.store.WalksEnd value := by
  intro options
  obtain ⟨ends, walks⟩ := awaitFree_run_terminates selfPushing selfPushing_awaitFree options 7
  exact ⟨ends, walks 10 _ (Run.mk options 10 selfPushing 7).reaches_final⟩

end FlowScript
