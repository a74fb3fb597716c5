import FlowScript.Proofs.Growth.Evaluation
import FlowScript.Proofs.Run.Parts

/-!
# What surrounds an expression

An expression never ends together with one of its parts: it still has a value to
make, a call to report or further parts to evaluate. Only a chain without
operations and a `try` without an error add nothing to what they evaluate.
-/

set_option autoImplicit false

namespace FlowScript

open RunM

/-- Whenever the computation ends with a value, it has added something. -/
def Acts {α : Type} (action : RunM α) : Prop :=
  ∀ (machine : Machine) (value : α) (final : Machine),
    action.Returns machine value final → machine < final

section

variable {α β : Type}

theorem Grows.returned {action : RunM α} {machine final : Machine} {value : α}
    (grows : Grows action.run) (returns : action.Returns machine value final) :
    machine ≤ final := by
  have ends := grows machine
  exact ends.of_run returns

namespace Acts

theorem throw (interruption : Interruption) : Acts (MonadExcept.throw interruption : RunM α) :=
  fun _ _ _ returns => by cases returns

theorem after {first : RunM α} {next : α → RunM β} (grows : Grows first.run)
    (acts : ∀ value, Acts (next value)) : Acts (first >>= next) := by
  intro machine result final returns
  obtain ⟨value, middle, firstReturns, nextReturns⟩ := returns.steps
  exact lt_of_le_of_lt (grows.returned firstReturns) (acts value _ _ _ nextReturns)

theorem before {first : RunM α} {next : α → RunM β} (acts : Acts first)
    (grows : ∀ value, Grows (next value).run) : Acts (first >>= next) := by
  intro machine result final returns
  obtain ⟨value, middle, firstReturns, nextReturns⟩ := returns.steps
  exact lt_of_lt_of_le (acts _ _ _ firstReturns) ((grows value).returned nextReturns)

theorem report (level : LogLevel) (message : String) (fields : List (String × LogValue)) :
    Acts (RunM.report level message fields) := by
  intro machine value final returns
  cases returns
  exact machine.lt_report _

theorem allocate (kind : StoredKind) (cell : Cell) :
    Acts (onStore (FlowScript.allocate kind cell)) := by
  intro machine value final returns
  cases returns
  exact Machine.lt_withStore (machine.store.lt_push cell)

theorem newInvocation (definition : Workflow) (arguments : CallArguments) (location : Span) :
    Acts (onStore (FlowScript.newInvocation definition arguments location)) := by
  intro machine value final returns
  cases returns
  exact Machine.lt_withStore machine.store.lt_nextTag

theorem onStoreAt {action : StoreExceptM α} {location : Span}
    (acts : ∀ store, After action.run store fun outcome final =>
      ∀ value, outcome = .ok value → store < final) : Acts (RunM.onStoreAt location action) := by
  intro machine value final returns
  obtain ⟨store, ran, rfl⟩ := returns.onStoreAt
  have ends := acts machine.store
  exact Machine.lt_withStore (ends.of_run ran value rfl)

end Acts

end

/-! ## Operators and calls -/

/-- The result of an operator is a new scalar. -/
theorem after_operator (result : Option (Except Cause Scalar)) (mismatch : Cause) (store : Store) :
    After (ExceptT.run (match result with
      | some (.ok result) => liftM (newScalar result)
      | some (.error cause) => throw cause
      | none => throw mismatch : StoreExceptM Value)) store fun outcome final =>
        ∀ value, outcome = .ok value → ∃ scalar : Scalar,
          value = .stored scalar.kind store.cells.size ∧
          final = { store with cells := store.cells.push (.scalar scalar) } := by
  cases result with
  | none => exact nofun
  | some result =>
      cases result with
      | ok scalar =>
          intro value same
          cases same
          exact ⟨scalar, rfl, rfl⟩
      | error cause => exact nofun

theorem Acts.operator {action : StoreExceptM Value} {location : Span}
    (makes : ∀ store, After action.run store fun outcome final =>
      ∀ value, outcome = .ok value → ∃ scalar : Scalar,
        value = .stored scalar.kind store.cells.size ∧
        final = { store with cells := store.cells.push (.scalar scalar) }) :
    Acts (RunM.onStoreAt location action) := by
  refine .onStoreAt fun store => (makes store).imp fun outcome final made value same => ?_
  obtain ⟨scalar, -, rfl⟩ := made value same
  exact store.lt_push _

theorem acts_binary (op : BinaryOperator) (left right : Value) (location : Span) :
    Acts (onStoreAt location (left.binary op right)) :=
  .operator fun store => after_operator (Value.binaryResult? store op left right) _ store

theorem acts_unary (op : UnaryOperator) (operand : Value) (location : Span) :
    Acts (onStoreAt location (operand.unary op)) :=
  .operator fun store => after_operator ((store.scalar? operand).bind (Scalar.unary op)) _ store

theorem acts_applied (operation : Operation) (left right : Value) :
    Acts (onStoreAt operation.span (operation.applied left right)) := by
  unfold Operation.applied
  split
  · exact acts_binary _ _ _ _
  · exact acts_binary _ _ _ _

theorem acts_applyOperation {evaluate : Expr → RunM Value}
    (evaluates : ∀ expr, Grows (evaluate expr).run) (program : Program) (left : Value)
    (operation : Operation) : Acts (applyOperation evaluate program left operation) := by
  by_cases tests : operation.op = .isA
  · unfold applyOperation typeTest
    rw [tests]
    dsimp only
    split
    · exact .allocate _ _
    · exact .throw _
  · rw [applyOperation_eq evaluate program left tests]
    exact .after (evaluates _) fun right => acts_applied operation left right

theorem acts_callValue (callee : Value) (path : Path) (arguments : CallArguments)
    (span : Span) : Acts (callValue callee path arguments span) := by
  cases callee with
  | builtin function =>
      exact .before (.report _ _ _) fun _ => growing.composes.callBuiltin function arguments span
  | member function receiver =>
      exact .before (.report _ _ _) fun _ =>
        growing.composes.onStoreAt _ (.member function receiver arguments)
  | workflow definition => exact .newInvocation _ _ _
  | void | error | stored | invocation => exact .throw _

/-! ## Awaiting -/

section

variable {execute : Context → Statement → RunM Unit}
  (executes : ∀ context statement, Grows (execute context statement).run)

include executes

theorem acts_awaitInvocation (context : Context) (definition : Workflow)
    (arguments : CallArguments) (called : Span) (timeout : Duration) (location : Span) :
    Acts (awaitInvocation execute context definition arguments called timeout location) := by
  intro machine value final returns
  have inner := executes (context.awaiting machine.now timeout)
  have grown := growing.invoke inner definition arguments called machine
  have acts : Acts (invoke (execute (context.awaiting machine.now timeout)) definition arguments
      called) :=
    .before (.report _ _ _) fun _ => growing.runCall inner definition arguments called
  unfold RunM.Returns at returns
  rw [run_awaitInvocation] at returns
  cases ran : (invoke (execute (context.awaiting machine.now timeout)) definition arguments
      called).run.run machine with
  | mk outcome middle =>
      have before : machine ≤ middle := grown.of_run ran
      rw [ran] at returns
      cases outcome with
      | ok result =>
          cases returns
          exact acts _ _ _ ran
      | error interruption =>
          dsimp only at returns
          split at returns
          · have answers : Acts (answerTimeout definition location) :=
              .before (.report _ _ _) fun _ => growing.onStore (.error _ _)
            exact lt_of_le_of_lt (le_trans before (middle.le_withScopes _))
              (answers _ value final returns)
          · cases returns

theorem acts_awaitValue (context : Context) (awaited : Value) (operand : Expr)
    (timeout : Duration) (location : Span) :
    Acts (awaitValue execute context awaited operand timeout location) := by
  unfold awaitValue
  split
  · exact acts_awaitInvocation executes context _ _ _ timeout location
  · exact acts_awaitInvocation executes context _ _ _ timeout location
  · split
    · rw [awaitHost_eq]
      split
      · exact .throw _
      · exact .after growing.composes.getStore fun _ => .before (.report _ _ _) fun _ =>
          growing.askHost context _ timeout location _ _ _ _
    · exact .throw _
  · exact .throw _

end

/-! ## Parts of expressions -/

namespace Site

def Yields (site : Site) (value : Value) (final : Machine) : Prop :=
  match site.work with
  | .expression expr =>
      (evaluate site.depth site.context expr).Returns site.machine value final
  | _ => False

/-- A chain without operations is no more than its first part. -/
inductive Wraps : Site → Site → Prop where
  | chain {depth : Nat} {context : Context} {first : Expr} {span : Span} {machine : Machine} :
      Wraps ⟨depth + 1, context, .expression (.chain first [] span), machine⟩
        ⟨depth, context, .expression first, machine⟩

theorem Yields.followed {outer inner : Site} {part value : Value} {middle final : Machine}
    {rest : RunM Value} (yields : inner.Yields part middle) (acts : Acts rest)
    (returns : rest.Returns middle value final) :
    ∃ part middle, inner.Yields part middle ∧ middle ≤ final ∧
      (part.isError → middle < final ∨ outer.Wraps inner) :=
  have strict := acts middle value final returns
  ⟨part, middle, yields, le_of_lt strict, fun _ => .inl strict⟩

/-- An expression goes on after each of its parts. Even a `try` does so after an
error, which it reports. -/
theorem Evaluates.surrounded {outer inner : Site} {value : Value} {final : Machine}
    (evaluates : outer.Evaluates inner) (yields : outer.Yields value final) :
    ∃ part middle, inner.Yields part middle ∧ middle ≤ final ∧
      (part.isError → middle < final ∨ outer.Wraps inner) := by
  cases evaluates with
  | @argument depth context callee before rest argument argumentsSpan span machine after values
      returns =>
      have parts := growing.lockstep.expression depth context
      obtain ⟨function, found, resolved, evaluated⟩ := returns.steps
      obtain ⟨part, middle, partReturns, called⟩ :=
        (RunM.Returns.of_run (run_argument resolved evaluated) yields).steps
      refine Yields.followed partReturns ?_ called
      exact .after (growing.composes.arguments parts _ rest) fun arguments =>
        acts_callValue function callee arguments span
  | @element depth context before rest element span machine after values returns =>
      have parts := growing.lockstep.expression depth context
      obtain ⟨part, middle, partReturns, made⟩ :=
        (RunM.Returns.of_run (run_element returns) yields).steps
      refine Yields.followed partReturns ?_ made
      exact .after (growing.onStore (.detach part)) fun _ =>
        .after (growing.composes.elements parts rest) fun _ => .allocate _ _
  | @entry depth context before rest entry span machine after values returns =>
      have parts := growing.lockstep.expression depth context
      obtain ⟨part, middle, partReturns, made⟩ :=
        (RunM.Returns.of_run (run_entry returns) yields).steps
      refine Yields.followed partReturns ?_ made
      exact .after (growing.onStore (.detach part)) fun _ =>
        .after (growing.composes.entries parts _ rest) fun _ => .allocate _ _
  | unary =>
      obtain ⟨part, middle, partReturns, applied⟩ := RunM.Returns.steps yields
      exact Yields.followed partReturns (acts_unary _ part _) applied
  | @first depth context first operations span machine =>
      have parts := growing.lockstep.expression depth context
      obtain ⟨part, middle, partReturns, applied⟩ := RunM.Returns.steps yields
      cases operations with
      | nil =>
          obtain ⟨-, rfl⟩ := applied.of_pure
          exact ⟨part, _, partReturns, le_refl _, fun _ => .inr .chain⟩
      | cons operation rest =>
          rw [applyOperations_cons] at applied
          refine Yields.followed partReturns ?_ applied
          exact .before (acts_applyOperation parts context.program part operation) fun left =>
            growing.composes.operations parts context.program left rest
  | @operand depth context first before rest operation span machine after left evaluated
      returns =>
      have parts := growing.lockstep.expression depth context
      obtain ⟨part, middle, partReturns, applied⟩ :=
        (RunM.Returns.of_run (run_operand evaluated returns) yields).steps
      refine Yields.followed partReturns ?_ applied
      exact .before (acts_applied operation left part) fun result =>
        growing.composes.operations parts context.program result rest
  | @awaited depth context operand duration span machine =>
      obtain ⟨part, middle, partReturns, awaits⟩ := RunM.Returns.steps yields
      refine Yields.followed partReturns ?_ awaits
      exact .after (growing.lockstep.expression depth context duration) fun limit =>
        .after (growing.composes.expectDuration limit _) fun timeout =>
          acts_awaitValue (growing.lockstep.statement depth) context part operand timeout span
  | @duration depth context operand duration span machine after awaited returns =>
      obtain ⟨part, middle, partReturns, awaits⟩ :=
        (RunM.Returns.of_run (run_duration returns) yields).steps
      refine Yields.followed partReturns ?_ awaits
      exact .after (growing.composes.expectDuration part _) fun timeout =>
        acts_awaitValue (growing.lockstep.statement depth) context awaited operand timeout span
  | attempt =>
      obtain ⟨part, middle, partReturns, reported⟩ := RunM.Returns.steps yields
      dsimp only at reported
      split at reported
      · refine Yields.followed partReturns ?_ reported
        exact .before (.report _ _ _) fun _ =>
          .run_bind (growing.modifyScopes _) fun _ => .run_pure part
      · next regular =>
          obtain ⟨-, rfl⟩ := reported.of_pure
          exact ⟨part, _, partReturns, le_refl _, fun error => absurd error regular⟩

theorem Yields.unique {site : Site} {value other : Value} {final otherFinal : Machine}
    (yields : site.Yields value final) (alsoYields : site.Yields other otherFinal) :
    value = other ∧ final = otherFinal := by
  obtain ⟨depth, context, work, machine⟩ := site
  cases work with
  | expression expr => exact RunM.Returns.unique yields alsoYields
  | statement | sequence => cases yields

theorem Wraps.yields {outer inner : Site} {value : Value} {final : Machine}
    (wraps : outer.Wraps inner) (yields : inner.Yields value final) : outer.Yields value final := by
  cases wraps with
  | chain => exact RunM.Returns.bind yields rfl

theorem wrapped_yields {outer inner : Site} {value : Value} {final : Machine}
    (wrapped : Relation.ReflTransGen Wraps outer inner) (yields : inner.Yields value final) :
    outer.Yields value final := by
  induction wrapped using Relation.ReflTransGen.head_induction_on with
  | refl => exact yields
  | head wraps _ ih => exact wraps.yields ih

/-- An expression adds something after an error in one of its parts, at whatever
depth, unless the part is all there is to it. -/
theorem error_surrounded {outer inner : Site} {value part : Value} {final middle : Machine}
    (chain : Relation.ReflTransGen Evaluates outer inner) (yields : outer.Yields value final)
    (partYields : inner.Yields part middle) (error : part.isError) :
    middle < final ∨ Relation.ReflTransGen Wraps outer inner := by
  induction chain using Relation.ReflTransGen.head_induction_on generalizing value final with
  | refl => exact .inr .refl
  | head evaluates _ ih =>
      obtain ⟨between, reached, betweenYields, before, surrounded⟩ := evaluates.surrounded yields
      rcases ih betweenYields with strict | wrapped
      · exact .inl (lt_of_lt_of_le strict before)
      · obtain ⟨rfl, rfl⟩ := betweenYields.unique (wrapped_yields wrapped partYields)
        exact (surrounded error).imp id fun wraps => wrapped.head wraps

/-! ## Parts of statements -/

theorem Starts.surrounded {outer inner : Site} {final : Machine} (starts : outer.Starts inner)
    (ends : outer.Ends final) : ∃ value middle, inner.Yields value middle ∧ middle ≤ final := by
  cases starts with
  | @declaration depth context name typeName expr span machine after kind returns =>
      obtain ⟨value, middle, evaluated, declared⟩ :=
        (RunM.Returns.of_run (run_initializer returns) ends).steps
      have declares := growing.lockstep.declareVariable (Eq.refl context) name kind span value
      exact ⟨value, middle, evaluated, declares.returned declared⟩
  | value owned returns =>
      obtain ⟨value, middle, evaluated, finished⟩ :=
        (RunM.Returns.of_run (run_value owned returns) ends).steps
      exact ⟨value, middle, evaluated, (growing.lockstep.finish rfl _ value).returned finished⟩
  | @condition depth context first branch others before rest otherwise span machine after split
      returns =>
      obtain ⟨holds, judged, tests, goesOn⟩ :=
        (RunM.Returns.of_run (run_execute_branch split returns) ends).steps
      obtain ⟨value, middle, evaluated, judges⟩ := RunM.Returns.steps tests
      have between := (growing.composes.onStoreAt _ (.truth value)).returned judges
      have after : Grows (do
          let chosen ← takeBranch depth context branch rest holds
          runOtherwise depth context otherwise chosen).run :=
        .run_bind (growing.lockstep.takeBranch depth context branch rest holds) fun chosen =>
          growing.lockstep.otherwise depth context otherwise chosen
      exact ⟨value, middle, evaluated, le_trans between (after.returned goesOn)⟩

/-- A block ends within the computation that runs it. -/
theorem block_surrounded {depth : Nat} {context : Context} {kind : ScopeKind} {block : Block}
    {machine final : Machine} {rest : FlowSignal → RunM Unit}
    (returns : (runBlock (execute depth context) kind block >>= rest).Returns machine () final)
    (grows : ∀ signal, Grows (rest signal).run) :
    ∃ middle, Site.Ends ⟨depth, context, .sequence block.statements, machine.entering kind⟩ middle ∧
      middle ≤ final := by
  obtain ⟨signal, _, ran, goesOn⟩ := returns.steps
  obtain ⟨inside, executed, -, rfl⟩ := returns_runBlock.mp ran
  exact ⟨inside, executed, le_trans (inside.le_withScopes _) ((grows signal).returned goesOn)⟩

theorem Runs.surrounded {outer inner : Site} {final : Machine} (runs : outer.Runs inner)
    (ends : outer.Ends final) : ∃ middle, inner.Ends middle ∧ middle ≤ final := by
  cases runs with
  | @first depth context statement rest machine =>
      obtain ⟨_, middle, executed, others⟩ := RunM.Returns.steps ends
      have after := growing.composes.rest (growing.lockstep.statement depth context) rest
      exact ⟨middle, executed, after.returned others⟩
  | next returns proceeds =>
      exact ⟨final, RunM.Returns.of_run (run_otherStatements returns proceeds) ends, le_refl final⟩
  | @branch depth context first branch others before rest otherwise span machine reached after
      split returns holds =>
      exact block_surrounded (.of_run (run_takenBranch split returns holds) ends) fun _ =>
        growing.lockstep.otherwise depth context otherwise true
  | otherwise returns =>
      exact block_surrounded (.of_run (run_lastBranch returns) ends) fun _ => .run_pure ()
  | @round depth context body span rounds machine after below returns =>
      obtain ⟨more, count⟩ := Nat.exists_eq_add_of_lt below
      refine block_surrounded (.of_run (run_execute_loop (by omega) returns) ends) fun signal => ?_
      exact growing.lockstep.goOnLooping depth context body more signal

theorem runs_surrounded {outer inner : Site} {final : Machine}
    (runs : Relation.ReflTransGen Runs outer inner) (ends : outer.Ends final) :
    ∃ middle, inner.Ends middle ∧ middle ≤ final := by
  induction runs with
  | refl => exact ⟨final, ends, le_refl final⟩
  | tail _ last ih =>
      obtain ⟨between, betweenEnds, after⟩ := ih
      obtain ⟨middle, middleEnds, before⟩ := last.surrounded betweenEnds
      exact ⟨middle, middleEnds, le_trans before after⟩

end Site

end FlowScript
