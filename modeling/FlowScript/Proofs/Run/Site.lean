import FlowScript.Proofs.After
import FlowScript.Proofs.Run.Walk
import FlowScript.Run.Instance
import Mathlib.Logic.Relation

/-!
# The evaluations of a run

A run evaluates expressions and executes statements, each at a place of its own:
with some depth left, in some context, on some machine. A place leads directly to
the places its evaluation takes up, and a run performs what its program leads to.
The relations follow the functions of evaluation step by step. A part is taken up
only after the parts before it have ended with a value.
-/

set_option autoImplicit false

namespace FlowScript

open RunM

inductive Work where
  | expression (expr : Expr)
  | statement (statement : Statement)
  | sequence (statements : List Statement)

def Work.isExpression : Work → Bool
  | .expression _ => true
  | .statement _ | .sequence _ => false

/-- Work together with everything its result depends on. -/
structure Site where
  depth : Nat
  context : Context
  work : Work
  machine : Machine

def Site.final (site : Site) : Machine :=
  match site.work with
  | .expression expr => ((evaluate site.depth site.context expr).run.run site.machine).2
  | .statement statement => ((execute site.depth site.context statement).run.run site.machine).2
  | .sequence statements =>
      ((executeAll (execute site.depth site.context) statements).run.run site.machine).2

def Site.Ends (site : Site) (final : Machine) : Prop :=
  match site.work with
  | .expression expr =>
      ∃ value, (evaluate site.depth site.context expr).Returns site.machine value final
  | .statement statement =>
      (execute site.depth site.context statement).Returns site.machine () final
  | .sequence statements =>
      (executeAll (execute site.depth site.context) statements).Returns site.machine () final

def Site.value? (site : Site) : Option Value :=
  match site.work with
  | .expression expr =>
      ((evaluate site.depth site.context expr).run.run site.machine).1.toOption
  | _ => none

/-- The call that an awaited value stands for. -/
def Value.pendingCall? (location : Span) : Value → Option (Workflow × CallArguments × Span)
  | .invocation _ definition arguments called => some (definition, arguments, called)
  | .workflow definition => some (definition, .empty location, location)
  | _ => none

def enterWorkflow (definition : Workflow) (arguments : CallArguments) (location : Span) :
    RunM Unit := do
  report .debug "invoke" [("workflow", .text definition.name.name)]
  modifyScopes (·.push .function)
  bindParameters definition arguments location

namespace Site

/-- An expression takes up one of its parts. -/
inductive Evaluates : Site → Site → Prop where
  | argument {depth : Nat} {context : Context} {callee : Path} {before rest : List Argument}
      {argument : Argument} {argumentsSpan span : Span} {machine after : Machine}
      {values : CallArguments} :
      RunM.Returns (do
        let _ ← resolve callee.head callee.tail
        evaluateArguments (evaluate depth context) (.empty argumentsSpan) before)
        machine values after →
      Evaluates ⟨depth + 1, context,
          .expression (.call callee (before ++ argument :: rest) argumentsSpan span), machine⟩
        ⟨depth, context, .expression argument.value, after⟩
  | element {depth : Nat} {context : Context} {before rest : List Expr} {element : Expr}
      {span : Span} {machine after : Machine} {values : List Value} :
      RunM.Returns (evaluateElements (evaluate depth context) before) machine values after →
      Evaluates ⟨depth + 1, context, .expression (.array (before ++ element :: rest) span),
          machine⟩
        ⟨depth, context, .expression element, after⟩
  | entry {depth : Nat} {context : Context} {before rest : List Entry} {entry : Entry}
      {span : Span} {machine after : Machine} {values : Dictionary Value} :
      RunM.Returns (evaluateEntries (evaluate depth context) .empty before) machine values
        after →
      Evaluates ⟨depth + 1, context, .expression (.dictionary (before ++ entry :: rest) span),
          machine⟩
        ⟨depth, context, .expression entry.value, after⟩
  | unary {depth : Nat} {context : Context} {op : UnaryOperator} {operand : Expr} {span : Span}
      {machine : Machine} :
      Evaluates ⟨depth + 1, context, .expression (.unary op operand span), machine⟩
        ⟨depth, context, .expression operand, machine⟩
  | first {depth : Nat} {context : Context} {first : Expr} {operations : List Operation}
      {span : Span} {machine : Machine} :
      Evaluates ⟨depth + 1, context, .expression (.chain first operations span), machine⟩
        ⟨depth, context, .expression first, machine⟩
  | operand {depth : Nat} {context : Context} {first : Expr} {before rest : List Operation}
      {operation : Operation} {span : Span} {machine after : Machine} {left : Value} :
      -- The right side of a type test is a name and is not evaluated.
      operation.op ≠ .isA →
      RunM.Returns (do
        let left ← evaluate depth context first
        applyOperations (evaluate depth context) context.program left before)
        machine left after →
      Evaluates ⟨depth + 1, context,
          .expression (.chain first (before ++ operation :: rest) span), machine⟩
        ⟨depth, context, .expression operation.operand, after⟩
  | awaited {depth : Nat} {context : Context} {operand duration : Expr} {span : Span}
      {machine : Machine} :
      Evaluates ⟨depth + 1, context, .expression (.await operand duration span), machine⟩
        ⟨depth, context, .expression operand, machine⟩
  | duration {depth : Nat} {context : Context} {operand duration : Expr} {span : Span}
      {machine after : Machine} {awaited : Value} :
      RunM.Returns (evaluate depth context operand) machine awaited after →
      Evaluates ⟨depth + 1, context, .expression (.await operand duration span), machine⟩
        ⟨depth, context, .expression duration, after⟩
  | attempt {depth : Nat} {context : Context} {operand : Expr} {span : Span}
      {machine : Machine} :
      Evaluates ⟨depth + 1, context, .expression (.attempt operand span), machine⟩
        ⟨depth, context, .expression operand, machine⟩

/-- A statement takes up one of its own expressions. -/
inductive Starts : Site → Site → Prop where
  | declaration {depth : Nat} {context : Context} {name typeName : Identifier} {value : Expr}
      {span : Span} {machine after : Machine} {kind : Kind} :
      RunM.Returns (do
        announce context (.declaration name typeName (some value) span)
        resolveKind typeName) machine kind after →
      Starts ⟨depth + 1, context, .statement (.declaration name typeName (some value) span),
          machine⟩
        ⟨depth, context, .expression value, after⟩
  | value {depth : Nat} {context : Context} {statement : Statement} {value : Expr}
      {machine after : Machine} :
      statement.value? = some value →
      RunM.Returns (announce context statement) machine () after →
      Starts ⟨depth + 1, context, .statement statement, machine⟩
        ⟨depth, context, .expression value, after⟩
  | condition {depth : Nat} {context : Context} {first branch : Conditional}
      {others before rest : List Conditional} {otherwise : Option Block} {span : Span}
      {machine after : Machine} :
      first :: others = before ++ branch :: rest →
      RunM.Returns (do
        announce context (.branch first others otherwise span)
        runBranches depth context before) machine false after →
      Starts ⟨depth + 1, context, .statement (.branch first others otherwise span), machine⟩
        ⟨depth, context, .expression branch.condition, after⟩

/-- Statements take up other statements of the same function. -/
inductive Runs : Site → Site → Prop where
  | first {depth : Nat} {context : Context} {statement : Statement} {rest : List Statement}
      {machine : Machine} :
      Runs ⟨depth, context, .sequence (statement :: rest), machine⟩
        ⟨depth, context, .statement statement, machine⟩
  | next {depth : Nat} {context : Context} {statement : Statement} {rest : List Statement}
      {machine after : Machine} :
      RunM.Returns (execute depth context statement) machine () after →
      after.scopes.flow = .proceed →
      Runs ⟨depth, context, .sequence (statement :: rest), machine⟩
        ⟨depth, context, .sequence rest, after⟩
  | branch {depth : Nat} {context : Context} {first branch : Conditional}
      {others before rest : List Conditional} {otherwise : Option Block} {span : Span}
      {machine reached after : Machine} :
      first :: others = before ++ branch :: rest →
      RunM.Returns (do
        announce context (.branch first others otherwise span)
        runBranches depth context before) machine false reached →
      RunM.Returns (testCondition depth context branch.condition) reached true after →
      Runs ⟨depth + 1, context, .statement (.branch first others otherwise span), machine⟩
        ⟨depth, context, .sequence branch.body.statements, after.entering .block⟩
  | otherwise {depth : Nat} {context : Context} {first : Conditional}
      {others : List Conditional} {block : Block} {span : Span} {machine after : Machine} :
      RunM.Returns (do
        announce context (.branch first others (some block) span)
        runBranches depth context (first :: others)) machine false after →
      Runs ⟨depth + 1, context, .statement (.branch first others (some block) span), machine⟩
        ⟨depth, context, .sequence block.statements, after.entering .block⟩
  | round {depth : Nat} {context : Context} {body : Block} {span : Span} {rounds : Nat}
      {machine after : Machine} :
      rounds < context.maxLoopCount →
      RunM.Returns (do
        announce context (.loop body span)
        runRounds depth context body rounds) machine false after →
      Runs ⟨depth + 1, context, .statement (.loop body span), machine⟩
        ⟨depth, context, .sequence body.statements, after.entering .loop⟩

/-- An `await` takes up the body of a workflow, which is a function of its own. -/
inductive Invokes : Site → Workflow → Site → Prop where
  | body {depth : Nat} {context : Context} {operand duration : Expr} {span called : Span}
      {awaited : Value} {timeout : Duration} {definition : Workflow} {arguments : CallArguments}
      {machine ready after : Machine} :
      RunM.Returns (evaluateAwait depth context operand duration) machine (awaited, timeout)
        ready →
      awaited.pendingCall? span = some (definition, arguments, called) →
      RunM.Returns (enterWorkflow definition arguments called) ready () after →
      Invokes ⟨depth + 1, context, .expression (.await operand duration span), machine⟩
        definition
        ⟨depth, context.awaiting ready.now timeout, .sequence definition.body.statements, after⟩

theorem Evaluates.isExpression {outer inner : Site} (evaluates : outer.Evaluates inner) :
    outer.work.isExpression = true ∧ inner.work.isExpression = true := by
  cases evaluates <;> exact ⟨rfl, rfl⟩

theorem Starts.isExpression {outer inner : Site} (starts : outer.Starts inner) :
    outer.work.isExpression = false ∧ inner.work.isExpression = true := by
  cases starts <;> exact ⟨rfl, rfl⟩

theorem Runs.isExpression {outer inner : Site} (runs : outer.Runs inner) :
    outer.work.isExpression = false ∧ inner.work.isExpression = false := by
  cases runs <;> exact ⟨rfl, rfl⟩

/-- A sequence comes to a statement when those before it have proceeded. -/
theorem runs_statement {depth : Nat} {context : Context} {statement : Statement}
    {before rest : List Statement} {machine after : Machine}
    (returns : (executeAll (execute depth context) before).Returns machine () after)
    (proceeds : after.scopes.flow = .proceed) :
    Relation.ReflTransGen Runs ⟨depth, context, .sequence (before ++ statement :: rest), machine⟩
      ⟨depth, context, .statement statement, after⟩ := by
  induction before generalizing machine with
  | nil =>
      obtain ⟨-, rfl⟩ := returns.of_pure
      exact .single .first
  | cons earlier others ih =>
      obtain ⟨_, middle, executes, remaining⟩ := RunM.Returns.steps returns
      change (executeRest (execute depth context) others).Returns middle () after at remaining
      unfold RunM.Returns at remaining
      rw [run_executeRest] at remaining
      split at remaining
      · next goesOn => exact .head (.next executes goesOn) (ih remaining)
      · next stops =>
          cases remaining
          exact absurd proceeds stops

inductive Enters (outer inner : Site) : Prop where
  | evaluates : outer.Evaluates inner → Enters outer inner
  | starts : outer.Starts inner → Enters outer inner
  | runs : outer.Runs inner → Enters outer inner
  | invokes {definition : Workflow} : outer.Invokes definition inner → Enters outer inner

end Site

def RunOptions.context (options : RunOptions) (program : Program) : Context :=
  { program
    host := options.host
    maxLoopCount := options.maxLoopCount
    started := options.started
    deadlines := [] }

/-- A run: what it is given, and how deeply its evaluation may nest. -/
structure Run where
  options : RunOptions
  depth : Nat
  program : Program
  instanceId : Int64

namespace Run

/-- A run of statements that were read from no text, without a host. -/
def ofStatements (statements : List Statement) (depth : Nat) : Run where
  options := ⟨Host.none, 10, ⟨0, 0⟩⟩
  depth
  program := ⟨"", [], ⟨statements, .origin⟩⟩
  instanceId := 0

def result? (run : Run) : Option Value :=
  (runProgram run.options run.depth run.program run.instanceId).1.toOption.join

def final (run : Run) : Machine :=
  (runProgram run.options run.depth run.program run.instanceId).2

def root (run : Run) : Site :=
  ⟨run.depth, run.options.context run.program, .sequence run.program.script.statements,
    initialMachine run.instanceId⟩

/-- The run comes to the site. -/
def Performs (run : Run) : Site → Prop := Relation.ReflTransGen Site.Enters run.root

/-- The functions of a run: its top level, and the workflows it invokes. Each has a
body, possibly a declared type, and a result for whoever started it. -/
inductive Function (run : Run) : Site → Option Identifier → Option Value → Prop where
  | program : Function run run.root none run.result?
  | workflow {await body : Site} {definition : Workflow} :
      run.Performs await → await.Invokes definition body →
      Function run body definition.returnType await.value?

/-- An expression that a statement of a function evaluates, as a whole or in part. -/
structure Evaluation (run : Run) (body : Site) (declared : Option Identifier)
    (result : Option Value) (statement expression : Site) : Prop where
  function : run.Function body declared result
  runs : Relation.ReflTransGen Site.Runs body statement
  evaluates : ∃ whole, statement.Starts whole ∧
    Relation.ReflTransGen Site.Evaluates whole expression

/-- The machine before or after something that the run evaluates or executes. -/
def Reaches (run : Run) (machine : Machine) : Prop :=
  ∃ site, run.Performs site ∧ (machine = site.machine ∨ machine = site.final)

/-- A run comes to a statement of its script when those before it have proceeded. -/
theorem performs_statement {run : Run} {statement : Statement} {rest : List Statement}
    {machine : Machine} (count : Nat)
    (splits : run.program.script.statements.drop count = statement :: rest)
    (returns : (executeAll (execute run.depth run.root.context)
      (run.program.script.statements.take count)).Returns run.root.machine () machine)
    (proceeds : machine.scopes.flow = .proceed) :
    run.Performs ⟨run.depth, run.root.context, .statement statement, machine⟩ := by
  have whole := List.take_append_drop count run.program.script.statements
  rw [splits] at whole
  have runs : Relation.ReflTransGen Site.Runs run.root
      ⟨run.depth, run.root.context, .statement statement, machine⟩ := by
    unfold root
    rw [← whole]
    exact Site.runs_statement returns proceeds
  exact Relation.ReflTransGen.mono (fun _ _ => Site.Enters.runs) _ _ runs

theorem Function.performed {run : Run} {body : Site} {declared : Option Identifier}
    {result : Option Value} (function : run.Function body declared result) :
    run.Performs body := by
  cases function with
  | program => exact .refl
  | workflow performed invokes => exact performed.tail (.invokes invokes)

theorem Evaluation.performed {run : Run} {body statement expression : Site}
    {declared : Option Identifier} {result : Option Value}
    (evaluation : run.Evaluation body declared result statement expression) :
    run.Performs expression := by
  obtain ⟨whole, starts, evaluates⟩ := evaluation.evaluates
  have reached : run.Performs statement :=
    evaluation.function.performed.trans
      (Relation.ReflTransGen.mono (fun _ _ => Site.Enters.runs) _ _ evaluation.runs)
  exact (reached.tail (.starts starts)).trans
    (Relation.ReflTransGen.mono (fun _ _ => Site.Enters.evaluates) _ _ evaluates)

theorem Function.runs_statements {run : Run} {body site : Site} {declared : Option Identifier}
    {result : Option Value} (function : run.Function body declared result)
    (runs : Relation.ReflTransGen Site.Runs body site) : site.work.isExpression = false := by
  cases runs with
  | refl =>
      cases function with
      | program => rfl
      | workflow _ invokes => cases invokes; rfl
  | tail _ last => exact last.isExpression.2

theorem Evaluation.isExpression {run : Run} {body statement expression : Site}
    {declared : Option Identifier} {result : Option Value}
    (evaluation : run.Evaluation body declared result statement expression) :
    expression.work.isExpression = true := by
  obtain ⟨whole, starts, evaluates⟩ := evaluation.evaluates
  cases evaluates with
  | refl => exact starts.isExpression.2
  | tail _ last => exact last.isExpression.2

/-- Whatever a run comes to belongs to one of its functions. -/
theorem Performs.belongs {run : Run} {site : Site} (performed : run.Performs site) :
    ∃ body declared result, run.Function body declared result ∧
      (Relation.ReflTransGen Site.Runs body site ∨
        ∃ statement, run.Evaluation body declared result statement site) := by
  induction performed with
  | refl => exact ⟨_, _, _, .program, .inl .refl⟩
  | tail performed enters ih =>
      obtain ⟨body, declared, result, function, place⟩ := ih
      cases enters with
      | invokes invokes => exact ⟨_, _, _, .workflow performed invokes, .inl .refl⟩
      | runs runs =>
          rcases place with chain | ⟨statement, evaluation⟩
          · exact ⟨_, _, _, function, .inl (chain.tail runs)⟩
          · exact absurd (evaluation.isExpression.symm.trans runs.isExpression.1) (by decide)
      | starts starts =>
          rcases place with chain | ⟨statement, evaluation⟩
          · exact ⟨_, _, _, function, .inr ⟨_, function, chain, _, starts, .refl⟩⟩
          · exact absurd (evaluation.isExpression.symm.trans starts.isExpression.1) (by decide)
      | evaluates evaluates =>
          rcases place with chain | ⟨statement, -, chain, whole, starts, before⟩
          · have statements := function.runs_statements chain
            exact absurd (evaluates.isExpression.1.symm.trans statements) (by decide)
          · exact ⟨_, _, _, function,
              .inr ⟨statement, function, chain, whole, starts, before.tail evaluates⟩⟩

theorem reaches_final (run : Run) : run.Reaches run.final := by
  refine ⟨run.root, .refl, .inr ?_⟩
  have ends : After (ExceptT.run (do
      executeAll (execute run.depth (run.options.context run.program))
        run.program.script.statements
      let scopes ← getScopes
      pure scopes.returnValue?)) (initialMachine run.instanceId)
      fun _ final => final = run.root.final := by
    simp only [after_getScopes, after_run_bind, after_run_pure]
    refine (after_eq _).imp fun outcome final ran => ?_
    have same : final = run.root.final := (congrArg Prod.snd ran).symm
    cases outcome <;> exact same
  exact ends

end Run

end FlowScript
