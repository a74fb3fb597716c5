import FlowScript.Proofs.Growth.Surroundings
import FlowScript.Proofs.Scope.Evaluation
import FlowScript.Proofs.Storage.Reach

/-!
# Early returns

A `try` with an error stores it as the result of the function and signals a
return. The signal is heeded between statements only: the rest of the statement
around the `try` is carried out first.
-/

set_option autoImplicit false

namespace FlowScript

open RunM

namespace Machine

/-- The current function is being left with the value. -/
structure Returning (machine : Machine) (value : Value) : Prop where
  flow : machine.scopes.flow = .returning
  result : machine.scopes.returnValue? = some value

/-- Between the machines nothing was reported or requested, no value was made and
no time passed. -/
structure Idle (before after : Machine) : Prop where
  now : after.now = before.now
  logs : after.logs = before.logs
  requests : after.requests = before.requests
  cells : after.store.cells.size = before.store.cells.size
  tags : after.store.nextTag = before.store.nextTag

theorem Idle.refl (machine : Machine) : machine.Idle machine := ⟨rfl, rfl, rfl, rfl, rfl⟩

theorem Idle.trans {first second third : Machine} (left : first.Idle second)
    (right : second.Idle third) : first.Idle third where
  now := right.now.trans left.now
  logs := right.logs.trans left.logs
  requests := right.requests.trans left.requests
  cells := right.cells.trans left.cells
  tags := right.tags.trans left.tags

theorem Idle.withScopes (machine : Machine) (scopes : ScopeStack) :
    machine.Idle { machine with scopes } := ⟨rfl, rfl, rfl, rfl, rfl⟩

theorem Idle.not_lt {before after : Machine} (idle : before.Idle after) : ¬ before < after := by
  rintro ⟨-, strict⟩
  refine strict ⟨⟨Nat.le_of_eq idle.cells, Nat.le_of_eq idle.tags⟩, ?_, ?_⟩
  · exact idle.logs ▸ List.prefix_rfl
  · exact idle.requests ▸ List.prefix_rfl

/-- A block or a loop hands a return on to the scope around it. -/
theorem Returning.pop {before inside : Machine} {kind : ScopeKind} {value : Value}
    (returning : inside.Returning value) (shared : kind ≠ .function)
    (balanced : (before.scopes.push kind).Balanced inside.scopes) :
    Returning { inside with scopes := inside.scopes.pop.2 } value := by
  have insideKind : inside.scopes.current.kind = kind := by
    rw [balanced.kind]
    cases kind <;> rfl
  have passes : inside.scopes.current.stopsSignal = false := by
    have flow : inside.scopes.current.flow = .returning := returning.flow
    unfold Scope.stopsSignal
    rw [flow, insideKind]
    exact beq_eq_false_iff_ne.mpr shared
  constructor
  · change inside.scopes.pop.2.flow = .returning
    rw [balanced.flow_pop, passes]
    exact returning.flow
  · exact (balanced.returnValue?_pop shared).trans returning.result

end Machine

namespace Site

/-! ## From a statement to its function -/

theorem entered_balanced {depth : Nat} {context : Context} {statements : List Statement}
    {machine inside : Machine} {kind : ScopeKind}
    (ends : (executeAll (execute depth context) statements).Returns (machine.entering kind) ()
      inside) :
    (machine.scopes.push kind).Balanced inside.scopes := by
  have balances := balances_executeAll (evaluation_balances depth context).2 statements
  exact (After.of_run (balances (machine.entering kind)) ends).2 rfl

theorem runBranch_unwinds {depth : Nat} {context : Context} {block : Block} {value : Value}
    {machine inside : Machine}
    (ends : (executeAll (execute depth context) block.statements).Returns
      (machine.entering .block) () inside) (returning : inside.Returning value) :
    ∃ final, (runBranch depth context block).Returns machine () final ∧
      final.Returning value ∧ inside.Idle final := by
  have left := returns_runBlock.mpr ⟨inside, ends, rfl, rfl⟩
  exact ⟨_, RunM.Returns.bind left rfl, returning.pop (by decide) (entered_balanced ends),
    .withScopes inside _⟩

/-- Nothing runs after a statement that returns; the scopes around it are left. -/
theorem Runs.unwinds {outer inner : Site} {value : Value} {middle : Machine}
    (runs : outer.Runs inner) (ends : inner.Ends middle) (returning : middle.Returning value) :
    ∃ final, outer.Ends final ∧ final.Returning value ∧ middle.Idle final := by
  cases runs with
  | @first depth context statement rest machine =>
      have stops : (executeRest (execute depth context) rest).Returns middle () middle := by
        unfold RunM.Returns
        rw [run_executeRest, if_neg]
        rw [returning.flow]
        decide
      exact ⟨middle, RunM.Returns.bind ends stops, returning, .refl middle⟩
  | @next depth context statement rest machine after returns proceeds =>
      have others : (executeRest (execute depth context) rest).Returns after () middle := by
        unfold RunM.Returns
        rw [run_executeRest, if_pos proceeds]
        exact ends
      exact ⟨middle, RunM.Returns.bind returns others, returning, .refl middle⟩
  | @branch depth context first branch others before rest otherwise span machine reached after
      split returns holds =>
      obtain ⟨final, ran, left, idle⟩ := runBranch_unwinds ends returning
      obtain ⟨_, announced, announces, before⟩ := returns.steps
      have chosen : (runBranches depth context (first :: others)).Returns announced true final := by
        rw [split, runBranches_append]
        exact before.bind (holds.bind (RunM.Returns.bind ran rfl))
      exact ⟨final, announces.bind (chosen.bind rfl), left, idle⟩
  | @otherwise depth context first others block span machine after returns =>
      obtain ⟨final, ran, left, idle⟩ := runBranch_unwinds ends returning
      obtain ⟨_, announced, announces, before⟩ := returns.steps
      exact ⟨final, announces.bind (before.bind ran), left, idle⟩
  | @round depth context body span rounds machine after below returns =>
      obtain ⟨more, count⟩ := Nat.exists_eq_add_of_lt below
      obtain ⟨_, announced, announces, before⟩ := returns.steps
      have left := returns_runBlock.mpr ⟨middle, ends, rfl, rfl⟩
      have signal : middle.scopes.pop.1 ≠ .proceed := by
        rw [ScopeStack.pop_signal, returning.flow]
        decide
      have repeated : (runRounds depth context body context.maxLoopCount).Returns announced true
          { middle with scopes := middle.scopes.pop.2 } := by
        rw [count, Nat.add_assoc, runRounds_add]
        refine before.bind (left.bind ?_)
        rw [if_neg signal]
        rfl
      exact ⟨_, announces.bind (repeated.bind rfl),
        returning.pop (by decide) (entered_balanced ends), .withScopes middle _⟩

theorem runs_unwind {outer inner : Site} {value : Value} {middle : Machine}
    (runs : Relation.ReflTransGen Runs outer inner) (ends : inner.Ends middle)
    (returning : middle.Returning value) :
    ∃ final, outer.Ends final ∧ final.Returning value ∧ middle.Idle final := by
  induction runs using Relation.ReflTransGen.head_induction_on with
  | refl => exact ⟨middle, ends, returning, .refl middle⟩
  | head runs _ ih =>
      obtain ⟨between, betweenEnds, betweenReturning, idle⟩ := ih
      obtain ⟨final, finalEnds, finalReturning, after⟩ := runs.unwinds betweenEnds betweenReturning
      exact ⟨final, finalEnds, finalReturning, idle.trans after⟩

end Site

/-! ## The rest of a statement -/

/-- Only the entries of a dictionary are found without making a value. -/
theorem after_property (value : Value) (name : String) (store : Store) :
    After (value.property name).run store fun outcome final => ∀ next, outcome = .ok next →
      final.dictionary? next = none ∨ final = store ∧ (store.dictionary? value).isSome := by
  unfold Value.property
  simp only [after_run_bind, after_run_get]
  split
  · have made : ∀ scalar : Scalar, After (newScalar scalar) store fun next final =>
        final.dictionary? next = none := by
      intro scalar
      change Store.dictionary? (store.push (.scalar scalar)) (.stored _ store.size) = none
      unfold Store.dictionary?
      dsimp only
      rw [Store.cell?_push_new]
    have static : After value.staticProperty store fun next final =>
        final.dictionary? next = none := by
      unfold Value.staticProperty
      simp only [after_bind, after_get]
      split <;> exact made _
    rw [after_run_lift]
    refine static.imp fun found final none => ?_
    intro next same
    cases same
    exact .inl none
  · split
    · intro next same
      cases same
      exact .inl rfl
    · split
      · next found =>
          intro next same
          cases same
          refine .inr ⟨rfl, ?_⟩
          obtain ⟨entries, present, -⟩ := Option.bind_eq_some_iff.mp found
          rw [present]
          rfl
      · intro next impossible
        cases impossible

theorem followPath_barren {value last : Value} {segments : List Identifier}
    {machine final : Machine} (returns : (followPath value segments).Returns machine last final)
    (barren : machine.store.dictionary? value = none) : final.store.dictionary? last = none := by
  induction segments generalizing value machine with
  | nil =>
      obtain ⟨rfl, rfl⟩ := returns.of_pure
      exact barren
  | cons segment rest ih =>
      obtain ⟨next, middle, found, follows⟩ := RunM.Returns.steps returns
      obtain ⟨store, ran, rfl⟩ := found.onStoreAt
      rcases (after_property value segment.name machine.store).of_run ran next rfl with
        none | ⟨-, some⟩
      · exact ih follows none
      · rw [barren] at some
        cases some

/-- A path to a dictionary is followed without making a value. -/
theorem followPath_idle {value last : Value} {segments : List Identifier}
    {machine final : Machine} (returns : (followPath value segments).Returns machine last final)
    (dictionary : (final.store.dictionary? last).isSome) : final = machine := by
  induction segments generalizing value machine with
  | nil => exact returns.of_pure.2
  | cons segment rest ih =>
      obtain ⟨next, middle, found, follows⟩ := RunM.Returns.steps returns
      obtain ⟨store, ran, rfl⟩ := found.onStoreAt
      rcases (after_property value segment.name machine.store).of_run ran next rfl with
        none | ⟨rfl, -⟩
      · rw [followPath_barren follows none] at dictionary
        cases dictionary
      · exact ih follows

theorem construct_error {now : Instant} {kind : Kind} {value result : Value} {store final : Store}
    (error : value.isError)
    (constructs : (Value.construct now kind value).run.run store = (.ok result, final)) :
    result = value ∧ final = store := by
  cases value with
  | error tag message location =>
      cases kind <;> cases constructs <;> exact ⟨rfl, rfl⟩
  | void | stored | member | builtin | workflow | invocation => cases error

theorem assign_error {target value result : Value} {store final : Store} (error : value.isError)
    (assigns : (target.assign value).run.run store = (.ok result, final)) :
    result = value ∧ final = store := by
  cases value with
  | error tag message location =>
      cases assigns
      exact ⟨rfl, rfl⟩
  | void | stored | member | builtin | workflow | invocation => cases error

theorem expectDuration_error {value : Value} {location : Span} {machine final : Machine}
    {duration : Duration} (error : value.isError) :
    ¬ (expectDuration value location).Returns machine duration final := by
  intro returns
  cases value with
  | error tag message location => cases returns
  | void | stored | member | builtin | workflow | invocation => cases error

theorem truth_error {value : Value} {location : Span} {machine final : Machine} {holds : Bool}
    (error : value.isError) :
    ¬ (onStoreAt location value.truth).Returns machine holds final := by
  intro returns
  cases value with
  | error tag message location => cases returns
  | void | stored | member | builtin | workflow | invocation => cases error

namespace Machine

theorem Returning.withScopes {machine : Machine} {value : Value} {scopes : ScopeStack}
    (returning : machine.Returning value) (flow : scopes.flow = machine.scopes.flow)
    (result : scopes.returnValue? = machine.scopes.returnValue?) :
    Returning { machine with scopes } value :=
  ⟨flow.trans returning.flow, result.trans returning.result⟩

end Machine

theorem declareVariable_error {context : Context} {name : Identifier} {kind : Kind} {span : Span}
    {value : Value} {machine final : Machine} (error : value.isError)
    (returning : machine.Returning value)
    (declares : (declareVariable context name kind span value).Returns machine () final) :
    final.Returning value ∧ machine.Idle final := by
  obtain ⟨now, read, reads, declares⟩ := RunM.Returns.steps declares
  cases reads
  obtain ⟨result, constructed, constructs, declares⟩ := declares.steps
  obtain ⟨store, ran, rfl⟩ := constructs.onStoreAt
  obtain ⟨rfl, rfl⟩ := construct_error error ran
  obtain ⟨scopes, declared, rfl⟩ := declares.onScopesAt
  obtain ⟨-, rfl⟩ := ScopeStack.declare_eq_ok declared
  exact ⟨returning.withScopes rfl rfl, .withScopes machine _⟩

theorem resolve_returns {head : Identifier} {tail : List Identifier} {value : Value}
    {machine final : Machine} (resolves : (resolve head tail).Returns machine value final) :
    ∃ start, (followPath start tail).Returns machine value final := by
  have found := RunM.Returns.rest resolves rfl
  split at found
  · next start _ => exact ⟨start, found⟩
  · cases found

/-- An error takes the place of what is assigned to, and nothing is made. -/
theorem assignTarget_error {target : Path} {span : Span} {value : Value}
    {machine final : Machine} (error : value.isError) (returning : machine.Returning value)
    (assigns : (assignTarget target value span).Returns machine () final) :
    final.Returning value ∧ machine.Idle final := by
  unfold assignTarget at assigns
  split at assigns
  · obtain ⟨current, _, resolves, remains⟩ := RunM.Returns.steps assigns
    obtain ⟨start, follows⟩ := resolve_returns resolves
    obtain ⟨-, rfl⟩ := follows.of_pure
    obtain ⟨result, _, replaces, rebinds⟩ := remains.steps
    obtain ⟨store, ran, rfl⟩ := replaces.onStoreAt
    obtain ⟨rfl, rfl⟩ := assign_error error ran
    obtain ⟨scopes, rebound, rfl⟩ := rebinds.onScopesAt
    obtain ⟨inner, slots⟩ := ScopeStack.rebind_eq_ok rebound
    have outlines := ScopeStack.rebindIn?_outline inner
    simp only [ScopeStack.scopes, List.map_cons, List.cons.injEq] at outlines
    have slot := congrArg Scope.Outline.slot outlines.1
    refine ⟨returning.withScopes (congrArg Scope.Outline.flow outlines.1) ?_, .withScopes _ _⟩
    simp only [Scope.outline] at slot
    simp only [ScopeStack.returnValue?, slots, slot]
  · obtain ⟨parent, reached, resolves, enters⟩ := RunM.Returns.steps assigns
    obtain ⟨start, follows⟩ := resolve_returns resolves
    have remains := RunM.Returns.rest enters rfl
    split at remains
    · next current _ found =>
        obtain ⟨entries, present, -⟩ := Option.bind_eq_some_iff.mp found
        have same : reached = machine := followPath_idle follows (by rw [present]; rfl)
        subst same
        obtain ⟨result, _, replaces, writes⟩ := remains.steps
        obtain ⟨store, ran, rfl⟩ := replaces.onStoreAt
        obtain ⟨rfl, rfl⟩ := assign_error error ran
        cases writes
        refine ⟨⟨returning.flow, returning.result⟩, rfl, rfl, rfl, ?_, ?_⟩
        · dsimp only
          split
          · exact Array.size_setIfInBounds
          · rfl
        · dsimp only
          split <;> rfl
    · cases remains

theorem setReturn_again {value : Value} {machine final : Machine}
    (returning : machine.Returning value) (returns : (setReturn value).Returns machine () final) :
    final.Returning value ∧ machine.Idle final := by
  cases returns
  have inBounds := ScopeStack.slot_lt_of_returnValue? returning.result
  exact ⟨⟨rfl, ScopeStack.returnValue?_setReturn inBounds value⟩, .withScopes machine _⟩

/-- A statement that ends on the error of its whole expression does nothing but keep
it. -/
theorem Site.Starts.keeps_error {statement whole : Site} {value : Value}
    {tried final : Machine} (starts : statement.Starts whole) (yields : whole.Yields value tried)
    (error : value.isError) (returning : tried.Returning value) (ends : statement.Ends final) :
    final.Returning value ∧ tried.Idle final := by
  cases starts with
  | declaration returns =>
      obtain ⟨_, _, announced, resolves⟩ := RunM.Returns.steps ends
      have declares := (resolves.rest (returns.rest announced)).rest yields
      exact declareVariable_error error returning declares
  | @value depth context statement expr machine after owned returns =>
      change RunM.Returns (execute _ _ _) _ _ _ at ends
      rw [execute_value _ _ owned] at ends
      have finishes := (RunM.Returns.rest ends returns).rest yields
      cases statement with
      | assignment target source span => exact assignTarget_error error returning finishes
      | delay duration span =>
          obtain ⟨_, _, expects, -⟩ := RunM.Returns.steps finishes
          exact absurd expects (expectDuration_error error)
      | returning result span =>
          exact setReturn_again returning finishes
      | raising raised span =>
          cases value with
          | error tag message location => exact setReturn_again returning finishes
          | void | stored | member | builtin | workflow | invocation => cases error
      | expression result span =>
          obtain ⟨-, rfl⟩ := RunM.Returns.of_pure finishes
          exact ⟨returning, .refl _⟩
      | importing | declaration | breaking | branch | loop | workflow => cases owned
  | @condition depth context first branch others before rest otherwise span machine after split
      returns =>
      change RunM.Returns (execute (depth + 1) context _) _ _ _ at ends
      rw [execute_branch, split, runBranches_append] at ends
      obtain ⟨_, _, announced, ends⟩ := ends.steps
      obtain ⟨chosen, _, tries, -⟩ := ends.steps
      obtain ⟨holds, _, tests, -⟩ := RunM.Returns.steps (tries.rest (returns.rest announced))
      exact absurd (RunM.Returns.rest tests yields) (truth_error error)

theorem attempt_returning {depth : Nat} {context : Context} {operand : Expr} {span : Span}
    {value : Value} {machine tried : Machine} (sound : machine.Sound fun _ => True)
    (yields : (evaluate depth context (.attempt operand span)).Returns machine value tried)
    (error : value.isError) : tried.Returning value := by
  cases depth with
  | zero => cases yields
  | succ depth =>
      have closed : ClosedWorkflows fun _ => True := fun _ _ _ _ _ _ => trivial
      obtain ⟨result, reached, evaluated, remains⟩ := RunM.Returns.steps yields
      have reachedSound := (((evaluation_preserves closed depth).1 context operand
        sound).returned evaluated).1
      dsimp only at remains
      split at remains
      · obtain ⟨_, reported, reports, remains⟩ := remains.steps
        cases reports
        obtain ⟨_, _, stores, remains⟩ := remains.steps
        cases stores
        obtain ⟨rfl, rfl⟩ := remains.of_pure
        have inBounds := reachedSound.slotted reached.scopes.current List.mem_cons_self
        exact ⟨rfl, ScopeStack.returnValue?_setReturn inBounds value⟩
      · next regular =>
          obtain ⟨rfl, rfl⟩ := remains.of_pure
          exact absurd error regular

/-! ## Results of functions -/

def Declared (declared : Option Identifier) : Prop :=
  ∀ name ∈ declared, (Kind.ofName? name.name).isSome

theorem declared_none : Declared none := fun _ impossible => by cases impossible

/-- A check fails or does not, but it is never abandoned. -/
theorem after_checkResult (definition : Workflow) (result : Option Value) (location : Span)
    (machine : Machine) :
    After (checkResult definition result location).run machine fun outcome _ =>
      match outcome with
      | .ok _ => Declared definition.returnType
      | .error interruption => interruption.isFailure := by
  have fits : ∀ declared : Kind, Declared definition.returnType →
      After (fitResult declared result location).run machine fun outcome _ =>
        match outcome with
        | .ok _ => Declared definition.returnType
        | .error interruption => interruption.isFailure := by
    intro declared known
    unfold fitResult
    split
    · split
      · exact known
      · rfl
    · split
      · exact known
      · rfl
  rw [checkResult_eq, after_run_bind]
  unfold declaredKind
  cases declared : definition.returnType with
  | none =>
      rw [declared] at fits
      exact fits .void declared_none
  | some name =>
      rw [declared] at fits
      unfold resolveKind
      dsimp only
      split
      · next kind known =>
          refine fits kind fun other same => ?_
          cases same
          rw [known]
          rfl
      · rfl

theorem Site.Invokes.value?_eq {await body : Site} {definition : Workflow} {final : Machine}
    (invokes : await.Invokes definition body) (ends : body.Ends final) :
    ∃ location, await.value? =
      ((checkResult definition final.scopes.returnValue? location).run.run final).1.toOption := by
  cases invokes with
  | @body depth context operand duration span called awaited timeout definition arguments
      machine ready after evaluated pending entered =>
      refine ⟨called, ?_⟩
      have awaits : (evaluate (depth + 1) context (.await operand duration span)).run.run machine =
          (awaitInvocation (execute depth) context definition arguments called timeout
            span).run.run ready := by
        rw [evaluate_await, run_bind_eq, evaluated]
        cases awaited with
        | invocation tag definition arguments location =>
            cases pending
            rfl
        | workflow definition =>
            cases pending
            rfl
        | void | error | stored | member | builtin => cases pending
      obtain ⟨_, announced, announces, enters⟩ := RunM.Returns.steps entered
      change (announceCall definition).Returns ready _ announced at announces
      have binds : (bindParameters definition arguments called).Returns
          (announced.entering .function) () after := enters.rest rfl
      have checks : (callBody (execute depth (context.awaiting ready.now timeout)) definition
          arguments called).run.run (announced.entering .function) =
            (checkResult definition final.scopes.returnValue? called).run.run final :=
        (binds.run_bind _).trans (RunM.Returns.run_bind _ ends)
      have fails := after_checkResult definition final.scopes.returnValue? called final
      unfold Site.value?
      dsimp only
      rw [awaits, run_awaitInvocation, invoke_eq, announces.run_bind, run_runCall, checks]
      cases checked : (checkResult definition final.scopes.returnValue? called).run.run final with
      | mk outcome last =>
          cases outcome with
          | ok value => rfl
          | error interruption =>
              have failed : interruption.isFailure := fails.of_run checked
              cases interruption with
              | failed fault => rfl
              | expired | exhausted => cases failed

theorem checkResult_error {definition : Workflow} {value : Value} {location : Span}
    (known : Declared definition.returnType) (error : value.isError) (machine : Machine) :
    (checkResult definition (some value) location).Returns machine value machine := by
  have fits : ∀ declared : Kind,
      (fitResult declared (some value) location).Returns machine value machine := by
    intro declared
    simp only [fitResult, error, true_or, if_true]
    rfl
  have declares : ∃ kind, (declaredKind definition).Returns machine kind machine := by
    unfold declaredKind
    cases declared : definition.returnType with
    | none => exact ⟨.void, rfl⟩
    | some name =>
        obtain ⟨kind, found⟩ := Option.isSome_iff_exists.mp (known name declared)
        refine ⟨kind, ?_⟩
        simp only [resolveKind, found]
        rfl
  obtain ⟨kind, declares⟩ := declares
  rw [checkResult_eq]
  exact declares.bind (fits kind)

namespace Run.Function

variable {run : Run} {body : Site} {declared : Option Identifier} {result : Option Value}
  {value : Value} {final : Machine}

theorem declared_of_result (function : run.Function body declared result)
    (ends : body.Ends final) (results : result = some value) : Declared declared := by
  cases function with
  | program => exact declared_none
  | @workflow await body definition performed invokes =>
      obtain ⟨location, checks⟩ := invokes.value?_eq ends
      rw [results] at checks
      have check := after_checkResult definition final.scopes.returnValue? location final
      cases checked : (checkResult definition final.scopes.returnValue? location).run.run final with
      | mk outcome last =>
          rw [checked] at checks
          cases outcome with
          | ok => exact check.of_run checked
          | error => cases checks

theorem result_of_returning (function : run.Function body declared result)
    (ends : body.Ends final) (returning : final.Returning value) (error : value.isError)
    (known : Declared declared) : result = some value := by
  cases function with
  | program =>
      have completes : runProgram run.options run.depth run.program run.instanceId =
          (.ok final.scopes.returnValue?, final) := RunM.Returns.run_bind _ ends
      unfold Run.result?
      rw [completes, returning.result]
      rfl
  | workflow performed invokes =>
      obtain ⟨location, checks⟩ := invokes.value?_eq ends
      rw [returning.result, checkResult_error known error final] at checks
      exact checks

end Run.Function

/-! ## When a `try` returns early -/

namespace Site

/-- The function gave the value to whoever started it, and from the machine on
nothing more of it was evaluated or executed. -/
structure ReturnsEarly (body : Site) (result : Option Value) (value : Value)
    (tried : Machine) : Prop where
  result : result = some value
  stops : ∃ final, body.Ends final ∧ tried.Idle final

/-- The expression is all that the statement evaluates for itself. -/
def Whole (statement expression : Site) : Prop :=
  ∃ whole, statement.Starts whole ∧ Relation.ReflTransGen Wraps whole expression

/-- A statement that takes any error as its value: a return, a raise, or a statement
made of an expression. -/
def Passes (site : Site) : Prop :=
  match site.work with
  | .statement (.returning _ _) | .statement (.raising _ _) | .statement (.expression _ _) => True
  | _ => False

theorem Starts.ends_of_passes {statement whole : Site} {value : Value} {tried : Machine}
    (starts : statement.Starts whole) (yields : whole.Yields value tried) (error : value.isError)
    (passes : statement.Passes) : ∃ final, statement.Ends final := by
  cases starts with
  | @value depth context statement expr machine after owned returns =>
      have finishes : ∃ final, (statement.finish context value).Returns tried () final := by
        cases statement with
        | returning result span => exact ⟨_, rfl⟩
        | raising raised span =>
            cases value with
            | error tag message location => exact ⟨_, rfl⟩
            | void | stored | member | builtin | workflow | invocation => cases error
        | expression result span => exact ⟨_, rfl⟩
        | assignment | delay | importing | declaration | breaking | branch | loop | workflow =>
            cases passes
      obtain ⟨final, finishes⟩ := finishes
      refine ⟨final, ?_⟩
      change RunM.Returns (execute _ _ _) _ _ _
      rw [execute_value _ _ owned]
      exact returns.bind (RunM.Returns.bind yields finishes)
  | declaration | condition => cases passes

end Site

/-- A statement of a function evaluates a `try`, and that yields an error. -/
structure Run.Catches (run : Run) (body : Site) (declared : Option Identifier)
    (result : Option Value) (statement attempt : Site) (value : Value) (tried : Machine) :
    Prop where
  evaluation : run.Evaluation body declared result statement attempt
  attempts : ∃ operand span, attempt.work = .expression (.attempt operand span)
  yields : attempt.Yields value tried
  error : value.isError

theorem Run.Catches.returning {run : Run} {body statement attempt : Site}
    {declared : Option Identifier} {result : Option Value} {value : Value} {tried : Machine}
    (catches : run.Catches body declared result statement attempt value tried) :
    tried.Returning value := by
  have closed : ClosedWorkflows fun _ => True := fun _ _ _ _ _ _ => trivial
  have sound := catches.evaluation.performed.sound closed fun _ _ _ _ => trivial
  obtain ⟨operand, span, isAttempt⟩ := catches.attempts
  have yields := catches.yields
  obtain ⟨depth, context, work, machine⟩ := attempt
  cases isAttempt
  exact attempt_returning sound.machine yields catches.error

/-- A `try` with an error returns early from its function exactly when it is the whole
expression of its statement, this statement ends, and the function has no unknown
type declared. A return, a raise or an expression statement always ends. -/
theorem attempt_returns_early_iff (run : Run) (body statement attempt : Site)
    (declared : Option Identifier) (result : Option Value) (value : Value) (tried : Machine)
    (catches : run.Catches body declared result statement attempt value tried) :
    (body.ReturnsEarly result value tried ↔
      Declared declared ∧ statement.Whole attempt ∧ ∃ final, statement.Ends final) ∧
    (statement.Passes → statement.Whole attempt → ∃ final, statement.Ends final) := by
  have returning := catches.returning
  obtain ⟨⟨function, runs, whole, starts, chain⟩, -, yields, error⟩ := catches
  refine ⟨⟨?_, ?_⟩, ?_⟩
  · rintro ⟨results, final, ends, idle⟩
    obtain ⟨middle, statementEnds, after⟩ := Site.runs_surrounded runs ends
    obtain ⟨other, evaluated, wholeYields, before⟩ := starts.surrounded statementEnds
    refine ⟨function.declared_of_result ends results, ⟨whole, starts, ?_⟩, middle, statementEnds⟩
    refine (Site.error_surrounded chain wholeYields yields error).resolve_left fun strict => ?_
    exact idle.not_lt (lt_of_lt_of_le strict (le_trans before after))
  · rintro ⟨known, ⟨whole, starts, wrapped⟩, middle, statementEnds⟩
    have wholeYields := Site.wrapped_yields wrapped yields
    obtain ⟨left, idle⟩ := starts.keeps_error wholeYields error returning statementEnds
    obtain ⟨final, ends, leaves, after⟩ := Site.runs_unwind runs statementEnds left
    exact ⟨function.result_of_returning ends leaves error known, final, ends, idle.trans after⟩
  · rintro passes ⟨whole, starts, wrapped⟩
    exact starts.ends_of_passes (Site.wrapped_yields wrapped yields) error passes

def failure : Statement :=
  .declaration ⟨"e", .origin⟩ ⟨"error", .origin⟩ (some (.literal (.string "bad") .origin)) .origin

def triedFailure : Expr := .attempt (.path ⟨⟨"e", .origin⟩, [], .origin⟩) .origin

def Run.first (run : Run) (statement : Statement) : RunM Unit :=
  execute run.depth run.root.context statement

def Run.beforeSecond (run : Run) (first second : Statement) : Machine :=
  ((announce run.root.context second).run.run ((run.first first).run.run run.root.machine).2).2

theorem Run.evaluation_second (run : Run) {first second : Statement} {rest : List Statement}
    {expr : Expr} {depth : Nat}
    (script : run.program.script.statements = first :: second :: rest)
    (deep : run.depth = depth + 1)
    (ends : ((run.first first).run.run run.root.machine).1.toOption.isSome)
    (proceeds : ((run.first first).run.run run.root.machine).2.scopes.flow = .proceed)
    (owned : second.value? = some expr) :
    run.Evaluation run.root none run.result?
      ⟨depth + 1, run.root.context, .statement second,
        ((run.first first).run.run run.root.machine).2⟩
      ⟨depth, run.root.context, .expression expr, run.beforeSecond first second⟩ := by
  obtain ⟨options, _, ⟨source, lines, ⟨_, span⟩⟩, instanceId⟩ := run
  cases script
  cases deep
  exact ⟨.program, .head (.next (.of_isSome ends) proceeds) (.single .first), _,
    .value owned rfl, .refl⟩

/-- The `try` is a statement, with another one behind it. -/
def plainAttempt : Run :=
  .ofStatements [failure, .expression triedFailure .origin,
    .returning (.literal (.integer 5) .origin) .origin] 10

theorem plainAttempt_returns_early :
    ∃ value tried, value.isError ∧
      plainAttempt.root.ReturnsEarly plainAttempt.result? value tried := by
  have evaluation := plainAttempt.evaluation_second rfl rfl (by decide +kernel)
    (by decide +kernel) rfl
  have yields := RunM.Returns.of_isSome (by decide +kernel :
    ((evaluate 9 plainAttempt.root.context triedFailure).run.run
      (plainAttempt.beforeSecond failure (.expression triedFailure .origin))).1.toOption.isSome)
  obtain ⟨⟨-, early⟩, ends⟩ := attempt_returns_early_iff plainAttempt _ _ _ _ _ _ _
    ⟨evaluation, ⟨_, _, rfl⟩, yields, by decide +kernel⟩
  refine ⟨_, _, by decide +kernel, early ⟨declared_none, ?_, ?_⟩⟩
  · exact ⟨_, .value rfl rfl, .refl⟩
  · exact ends trivial ⟨_, .value rfl rfl, .refl⟩

def failureTest : Statement :=
  .returning (.chain triedFailure [⟨.isA, .path ⟨⟨"error", .origin⟩, [], .origin⟩, .origin⟩]
    .origin) .origin

def testedAttempt : Run := .ofStatements [failure, failureTest] 10

/-- An error that a `try` yields need not be the result of its function. -/
theorem attempt_not_always_early :
    ¬ ∀ (run : Run) (body statement attempt : Site) (declared : Option Identifier)
      (result : Option Value) (value : Value) (tried : Machine),
      run.Catches body declared result statement attempt value tried →
        body.ReturnsEarly result value tried := by
  intro early
  obtain ⟨function, runs, whole, starts, chain⟩ := testedAttempt.evaluation_second rfl rfl
    (by decide +kernel) (by decide +kernel) rfl
  have yields := RunM.Returns.of_isSome (by decide +kernel :
    ((evaluate 8 testedAttempt.root.context triedFailure).run.run
      (testedAttempt.beforeSecond failure failureTest)).1.toOption.isSome)
  obtain ⟨results, -⟩ := early testedAttempt _ _ _ _ _ _ _
    ⟨⟨function, runs, whole, starts, chain.tail .first⟩, ⟨_, _, rfl⟩, yields, by decide +kernel⟩
  have tested : testedAttempt.result?.map Value.isError = some false := by decide +kernel
  have caught : testedAttempt.result?.map Value.isError = some true := by
    rw [results]
    decide +kernel
  rw [tested] at caught
  cases caught

end FlowScript
