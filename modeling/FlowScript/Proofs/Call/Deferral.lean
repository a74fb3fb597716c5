import FlowScript.Proofs.Call.Binding
import FlowScript.Proofs.Guard.Chain
import FlowScript.Proofs.Guard.Course

/-!
# Pending calls and their arguments

The call of a workflow does not run it: its value is a pending call, which may be stored
anywhere until it is awaited. The pending call has the argument values as they are, and
copies are made of them only when the await binds the parameters. So a parameter has what
the argument had when the call was evaluated if nothing else leads to the argument; an
argument that is a variable, or a part of one, is bound as it is by then.
-/

set_option autoImplicit false

namespace FlowScript

open RunM

namespace Site

/-- A call of a workflow evaluates its arguments, and its value is the pending call. -/
inductive Defers : Site → Value → CallArguments → Machine → Prop where
  | intro {depth tag : Nat} {context : Context} {callee : Path} {parts : List Argument}
      {argumentsSpan span : Span} {definition : Workflow} {arguments : CallArguments}
      {machine found evaluated called : Machine} :
      (resolve callee.head callee.tail).Returns machine (.workflow definition) found →
      (evaluateArguments (evaluate depth context) (.empty argumentsSpan) parts).Returns found
        arguments evaluated →
      (onStore (newInvocation definition arguments span)).Returns evaluated
        (.invocation tag definition arguments span) called →
      Defers ⟨depth + 1, context, .expression (.call callee parts argumentsSpan span), machine⟩
        (.invocation tag definition arguments span) arguments called

/-- An `await` has evaluated a pending call and its duration on the machine that is ready,
and goes on to the body of the workflow. -/
inductive Awaits : Site → Value → Machine → Workflow → Site → Prop where
  | intro {depth tag : Nat} {context : Context} {operand duration : Expr} {span called : Span}
      {definition : Workflow} {arguments : CallArguments} {timeout : Duration}
      {machine ready after : Machine} :
      (evaluateAwait depth context operand duration).Returns machine
        (.invocation tag definition arguments called, timeout) ready →
      (enterWorkflow definition arguments called).Returns ready () after →
      Awaits ⟨depth + 1, context, .expression (.await operand duration span), machine⟩
        (.invocation tag definition arguments called) ready definition
        ⟨depth, context.awaiting ready.now timeout, .sequence definition.body.statements, after⟩

theorem Defers.yields {site : Site} {pending : Value} {arguments : CallArguments}
    {called : Machine} (defers : site.Defers pending arguments called) :
    site.Yields pending called := by
  cases defers with
  | intro resolved evaluated made => exact resolved.bind (evaluated.bind made)

theorem Awaits.invokes {site body : Site} {pending : Value} {ready : Machine}
    {definition : Workflow} (awaits : site.Awaits pending ready definition body) :
    site.Invokes definition body := by
  cases awaits with
  | intro evaluated enters => exact .body evaluated rfl enters

end Site

/-- A value whose cells are what they were earlier had the contents of its copy by then. -/
theorem Value.Alike.earlier {before later right : Store} {value other : Value}
    (alike : value.Alike later right other)
    (same : ∀ address, value.Reaches before address →
      later.cell? address = before.cell? address) : value.Alike before right other := by
  induction alike with
  | bare bare => exact .bare bare
  | @stored kind address copied cell copy found atCopy form _ ih =>
      have kept : before.cell? address = some cell :=
        (same address ⟨address, rfl, .refl⟩).symm.trans found
      refine .stored kept atCopy form fun pair member => ih pair member ?_
      rintro part ⟨root, refers, path⟩
      have isPart : root ∈ before.parts address := by
        rw [Store.parts_of_cell kept]
        exact mem_addresses.mpr ⟨pair.1, (List.of_mem_zip member).1, refers⟩
      exact same part ⟨address, rfl, path.head isPart⟩

/-- Whatever can be in hand below a bound leads to no hidden cell. -/
theorem shielded_spares {machine earlier : Machine} {hand : List Value} {rank : Nat → Nat}
    (ranked : machine.store.RankedBy rank) :
    (shielded machine earlier.size hand rank ranked).Spares earlier :=
  fun _ within _ mentions hides => hides.apart (.old (within.mentions_lt mentions))

/-! ## Binding the parameters -/

/-- Entering a workflow binds its parameters, in order, to copies of their partners. -/
theorem enterWorkflow_binds {allowed : Workflow → Prop} {definition : Workflow}
    {arguments : CallArguments} {called : Span} {ready after : Machine}
    (sound : ready.Sound allowed) (within : arguments.Within allowed ready.size)
    (enters : (enterWorkflow definition arguments called).Returns ready () after) :
    ∃ (chosen : List CallArgument) (copies : List Value),
      (∀ index, arguments.partner? definition.parameters index = chosen[index]?) ∧
      chosen.Perm arguments.items ∧
      after.scopes.current.bindings.entries = (parameterNames definition.parameters).zip copies ∧
      ready < after ∧ ready.store.Keeps after.store ∧
      ∀ pair ∈ chosen.zip copies, pair.1.value.Alike ready.store after.store pair.2 := by
  obtain ⟨_, announced, announces, enters⟩ := RunM.Returns.steps enters
  obtain ⟨_, _, pushes, binds⟩ := enters.steps
  have reports := Acts.report _ _ _ _ _ _ announces
  cases announces
  cases pushes
  have grows := (growing.bindParameters definition arguments called).returned binds
  obtain ⟨fits, chosen, copies, store, chooses, ran, rfl⟩ :=
    (returns_bindParameters_iff rfl).mp binds
  have permuted := CallArguments.chooseAll?_perm_items fits.count fits.parametersOnce
    fits.namesKnown chooses
  obtain ⟨copied, alike⟩ := (detachAll_copies sound.store fun argument member =>
    within argument (permuted.mem_iff.mp member)).of_run ran
  exact ⟨chosen, copies, CallArguments.partner?_of_chooseAll? chooses, permuted, rfl,
    lt_of_lt_of_le reports (le_trans (Machine.le_withScopes _ _) grows), copied.grown.keeps, alike⟩

/-! ## Deferred calls -/

/-- Wherever a run goes after the call was evaluated, an argument that nothing else led to
has the cells it had. -/
theorem Site.Defers.shields {run : Run} {call site : Site} {pending : Value}
    {arguments : CallArguments} {called : Machine} (performed : run.Performs call)
    (defers : call.Defers pending arguments called) (reached : run.Performs site)
    (later : called < site.machine) :
    called.Sound (fun _ => True) ∧ arguments.Within (fun _ => True) called.size ∧
      site.machine.store.Shields called call.machine.size (arguments.items.map (·.value)) := by
  have closed : ClosedWorkflows fun _ => True := fun _ _ _ _ _ _ => trivial
  have rootSound : run.root.Sound fun _ => True :=
    Run.Performs.sound closed (fun _ _ _ _ => trivial) .refl
  have callSound := performed.sound closed fun _ _ _ _ => trivial
  have yields := defers.yields
  cases defers with
  | @intro depth tag context callee parts argumentsSpan span definition _ machine found evaluated _
      resolved evaluates made =>
      obtain ⟨calledSound, within⟩ :=
        ((evaluation_preserves closed (depth + 1)).1 context _ callSound.machine).returned yields
      obtain ⟨rank, ranked⟩ := calledSound.store.ranked
      let guard := shielded called machine.size (arguments.items.map (·.value)) rank ranked
      have pendingGood : guard.good (.invocation tag definition arguments span) := by
        intro address mentions hides
        cases mentions with
        | argument member bare inner =>
            exact hides.apart (.receiver (.inr (List.mem_map_of_mem member)) bare inner)
      have passes : guard.Passes ⟨depth + 1, context,
          .expression (.call callee parts argumentsSpan span), machine⟩ :=
        .of_returns yields (Machine.shields_self ranked) pendingGood
      have ended : Site.final ⟨depth + 1, context,
          .expression (.call callee parts argumentsSpan span), machine⟩ = called :=
        congrArg Prod.snd yields
      have carried := passes.carried (fun _ => trivial) rootSound performed reached
        (shielded_spares ranked) (ended.symm ▸ later)
      cases within with
      | invocation _ argumentsWithin => exact ⟨calledSound, argumentsWithin, carried.store⟩

/-- The only argument of a call is private if an operator makes it. -/
theorem Site.Defers.operator_private {depth : Nat} {context : Context} {callee : Path}
    {name : Option Identifier} {first : Expr} {operation : Operation} {rest : List Operation}
    {chainSpan location argumentsSpan span : Span} {machine called : Machine} {pending : Value}
    {arguments : CallArguments} (sound : machine.Sound fun _ => True)
    (defers : Site.Defers ⟨depth + 2, context, .expression (.call callee
      [⟨name, .chain first (operation :: rest) chainSpan, location⟩] argumentsSpan span), machine⟩
      pending arguments called) :
    ∀ argument ∈ arguments.items,
      argument.value.Private called machine.size (arguments.items.map (·.value)) := by
  have closed : ClosedWorkflows fun _ => True := fun _ _ _ _ _ _ => trivial
  cases defers with
  | @intro _ tag _ _ _ _ _ definition _ _ found evaluated _ resolved evaluates made =>
      have resolves := resolve_preserves sound callee.head callee.tail
      obtain ⟨foundSound, -⟩ := resolves.returned resolved
      obtain ⟨value, chained, chain, ends⟩ := RunM.Returns.steps evaluates
      obtain ⟨rfl, rfl⟩ := ends.of_pure
      obtain ⟨left, started, start, operates⟩ := RunM.Returns.steps chain
      have starts := (evaluation_preserves closed depth).1 context first foundSound
      obtain ⟨ready, readySound, after, makes⟩ :=
        applyOperations_makes (starts.returned start).1 operates
      cases makes
      cases made
      have below : machine.size ≤ ready.size := Nat.le_trans (resolves.keeps resolved).size_le
        (Nat.le_trans (starts.keeps start).size_le after)
      intro argument member
      cases List.mem_singleton.mp member
      refine Value.private_scalar readySound rfl rfl below fun other inHand bare => ?_
      cases List.mem_singleton.mp inHand
      cases bare

/-- The parameters of an awaited call are bound to deep copies of what the arguments are by
then. An argument that was made by the call, and that nothing else led to when the call
was evaluated, still is what it was. -/
theorem deferred_call_binds {run : Run} {call await body : Site} {pending : Value}
    {definition : Workflow} {arguments : CallArguments} {called ready : Machine}
    (calls : run.Performs call) (defers : call.Defers pending arguments called)
    (performed : run.Performs await) (awaits : await.Awaits pending ready definition body)
    (later : called ≤ ready) :
    ∃ (chosen : List CallArgument) (copies : List Value),
      (∀ index, arguments.partner? definition.parameters index = chosen[index]?) ∧
      chosen.Perm arguments.items ∧
      body.machine.scopes.current.bindings.entries =
        (parameterNames definition.parameters).zip copies ∧
      ∀ pair ∈ chosen.zip copies,
        pair.1.value.Alike ready.store body.machine.store pair.2 ∧
        (pair.1.value.Private called call.machine.size (arguments.items.map (·.value)) →
          pair.1.value.Alike called.store body.machine.store pair.2) := by
  have closed : ClosedWorkflows fun _ => True := fun _ _ _ _ _ _ => trivial
  have awaitSound := performed.sound closed fun _ _ _ _ => trivial
  have entered : run.Performs body := performed.tail (.invokes awaits.invokes)
  have shields := fun after => defers.shields calls entered after
  cases awaits with
  | @intro depth tag context operand duration span location definition others timeout machine ready
      after evaluated enters =>
      obtain rfl : others = arguments := by cases defers; rfl
      obtain ⟨readySound, within⟩ := (Site.evaluateAwait_preserves closed awaitSound.machine depth
        context operand duration).returned evaluated
      cases within with
      | invocation _ within =>
          obtain ⟨chosen, copies, partners, permuted, entries, strict, keeps, alike⟩ :=
            enterWorkflow_binds readySound within enters
          refine ⟨chosen, copies, partners, permuted, entries, fun pair member =>
            ⟨alike pair member, fun isPrivate => ?_⟩⟩
          obtain ⟨calledSound, calledWithin, shields⟩ := shields (lt_of_le_of_lt later strict)
          have inItems := permuted.mem_iff.mp (List.of_mem_zip member).1
          have argumentWithin := calledWithin pair.1 inItems
          refine (alike pair member).earlier fun address reaches => ?_
          have inBounds := reaches.lt calledSound.store argumentWithin
          obtain ⟨cell, found⟩ := Store.exists_cell_of_lt
            (Nat.lt_of_lt_of_le inBounds later.store.1)
          have kept := isPrivate.same calledSound argumentWithin shields reaches
          exact found.trans ((keeps address cell found).symm.trans kept)

/-! ## A variable that changes before the await -/

theorem Value.exists_workflow {value : Value} (isWorkflow : value.kind = .workflow) :
    ∃ definition, value = .workflow definition := by
  cases value with
  | workflow definition => exact ⟨definition, rfl⟩
  | _ => cases isWorkflow

/-- The run evaluates the call, and its only argument is the one number. Later the run awaits
the same call, and binds the only parameter `a` to the other number. -/
def Run.BindsLate (run : Run) (call await : Site) (given bound : Int64) : Prop :=
  ∃ (called ready : Machine) (body : Site) (pending : Value) (definition : Workflow)
    (arguments : CallArguments),
    run.Performs call ∧ call.Defers pending arguments called ∧
    run.Performs await ∧ await.Awaits pending ready definition body ∧ called ≤ ready ∧
    arguments.items.map (called.store.integer? ·.value) = [some given] ∧
    body.machine.scopes.current.bindings.entries.map
      (fun entry => (entry.1, body.machine.store.integer? entry.2)) = [("a", some bound)]

/-- A workflow `w` that returns its only parameter `a`. -/
def lateWorkflow : Workflow :=
  let name (text : String) : Identifier := ⟨text, .origin⟩
  ⟨name "w", some ⟨[⟨name "a", name "integer", .origin⟩], some (name "integer"), .origin⟩,
    ⟨[.returning (.path ⟨name "a", [], .origin⟩) .origin], .origin⟩, .origin⟩

/-- The call `w(argument)`. -/
def lateCall (argument : Expr) : Expr :=
  .call ⟨⟨"w", .origin⟩, [], .origin⟩ [⟨none, argument, .origin⟩] .origin .origin

/-- The expression `x`. -/
def currentX : Expr := .path ⟨⟨"x", .origin⟩, [], .origin⟩

/-- The expression `x + 1`. -/
def nextX : Expr := .chain currentX [⟨.plus, .literal (.integer 1) .origin, .origin⟩] .origin

/-- The duration `await later() for 1sec`. -/
def lateDuration : Expr :=
  .await (.call ⟨⟨"later", .origin⟩, [], .origin⟩ [] .origin .origin)
    (.literal (.duration ⟨1, .sec⟩) .origin) .origin

/-- Changes a variable before a call is awaited. For a workflow `later` that assigns 5 to `x`
and returns `1sec`, the run executes `x : integer = 1` and
`return await w(argument) for await later() for 1sec`. -/
def lateRun (argument : Expr) : Run :=
  let name (text : String) : Identifier := ⟨text, .origin⟩
  let integer (number : Int64) : Expr := .literal (.integer number) .origin
  .ofStatements
    [.workflow lateWorkflow,
    .workflow ⟨name "later", some ⟨[], some (name "duration"), .origin⟩,
      ⟨[.assignment ⟨name "x", [], .origin⟩ (integer 5) .origin,
        .returning (.literal (.duration ⟨1, .sec⟩) .origin) .origin], .origin⟩, .origin⟩,
    .declaration (name "x") (name "integer") (some (integer 1)) .origin,
    .returning (.await (lateCall argument) lateDuration .origin) .origin] 9

/-- The call is awaited where it is evaluated, and the duration is evaluated in between. -/
def LateBinding (argument : Expr) (given bound : Int64) : Prop :=
  ∃ (context : Context) (machine : Machine),
    (lateRun argument).BindsLate ⟨7, context, .expression (lateCall argument), machine⟩
      ⟨8, context, .expression (.await (lateCall argument) lateDuration .origin), machine⟩
      given bound

theorem LateBinding.of_returns {argument : Expr} {given bound : Int64} {context : Context}
    {machine found evaluated limited ready after : Machine} {callee limit : Value}
    {arguments : CallArguments} {timeout : Duration}
    (performed : (lateRun argument).Performs
      ⟨8, context, .expression (.await (lateCall argument) lateDuration .origin), machine⟩)
    (resolves : (resolve ⟨"w", .origin⟩ []).Returns machine callee found)
    (isWorkflow : callee.kind = .workflow)
    (evaluates : (evaluateArguments (evaluate 6 context) (.empty .origin)
      [⟨none, argument, .origin⟩]).Returns found arguments evaluated)
    (limits : (evaluate 7 context lateDuration).Returns
      { evaluated with store := { evaluated.store with nextTag := evaluated.store.nextTag + 1 } }
      limit limited)
    (expects : (expectDuration limit .origin).Returns limited timeout ready)
    (givenNumber : arguments.items.map (evaluated.store.integer? ·.value) = [some given])
    (enters : (match callee with
      | .workflow definition => enterWorkflow definition arguments .origin
      | _ => Pure.pure ()).Returns ready () after)
    (boundNumber : after.scopes.current.bindings.entries.map
      (fun entry => (entry.1, after.store.integer? entry.2)) = [("a", some bound)]) :
    LateBinding argument given bound := by
  obtain ⟨definition, rfl⟩ := Value.exists_workflow isWorkflow
  have defers : Site.Defers ⟨7, context, .expression (lateCall argument), machine⟩ _ arguments _ :=
    .intro resolves evaluates rfl
  have waits : (evaluateAwait 7 context (lateCall argument) lateDuration).Returns machine _ ready :=
    defers.yields.bind (limits.bind (expects.bind rfl))
  have later := le_trans (((evaluation_grows 7 context).1 lateDuration).returned limits)
    ((growing.composes.expectDuration limit .origin).returned expects)
  exact ⟨context, machine, _, ready, _, _, definition, arguments,
    performed.tail (.evaluates .awaited), defers, performed, .intro waits enters, later,
    givenNumber, boundNumber⟩

/-- The sum `x + 1` is 2 when the call of `w` is evaluated, and so is the parameter: the
sum is a new value. -/
theorem nextX_bound_early :
    ∃ (machine called ready : Machine) (body : Site) (pending : Value) (definition : Workflow)
      (arguments : CallArguments) (context : Context) (chosen : List CallArgument)
      (copies : List Value),
      (lateRun nextX).Performs
        ⟨8, context, .expression (.await (lateCall nextX) lateDuration .origin), machine⟩ ∧
      Site.Defers ⟨7, context, .expression (lateCall nextX), machine⟩ pending arguments called ∧
      Site.Awaits ⟨8, context, .expression (.await (lateCall nextX) lateDuration .origin),
        machine⟩ pending ready definition body ∧
      chosen.Perm arguments.items ∧
      body.machine.scopes.current.bindings.entries =
        (parameterNames definition.parameters).zip copies ∧
      body.machine.scopes.current.bindings.entries.map
        (fun entry => (entry.1, body.machine.store.integer? entry.2)) = [("a", some 2)] ∧
      ∀ pair ∈ chosen.zip copies,
        pair.1.value.Alike called.store body.machine.store pair.2 := by
  obtain ⟨context, machine, called, ready, body, pending, definition, arguments, calls, defers,
    performed, waits, later, -, bound⟩ : LateBinding nextX 2 2 := .of_returns
    (.tail (Run.performs_statement 3 rfl (.unit_of_isSome (by decide +kernel)) (by decide +kernel))
      (.starts (.value rfl (.unit_of_isSome (by decide +kernel)))))
    (.of_isSome (by decide +kernel)) (by decide +kernel) (.of_isSome (by decide +kernel))
    (.of_isSome (by decide +kernel)) (.of_isSome (by decide +kernel)) (by decide +kernel)
    (.unit_of_isSome (by decide +kernel)) (by decide +kernel)
  have sound := calls.sound (fun _ _ _ _ _ _ => trivial) fun _ _ _ _ => trivial
  obtain ⟨chosen, copies, -, permuted, entries, copied⟩ :=
    deferred_call_binds calls defers performed waits later
  refine ⟨machine, called, ready, body, pending, definition, arguments, context, chosen, copies,
    performed, defers, waits, permuted, entries, bound, fun pair member => ?_⟩
  have inItems := permuted.mem_iff.mp (List.of_mem_zip member).1
  exact (copied pair member).2 (Site.Defers.operator_private sound.machine defers pair.1 inItems)

/-- The variable `x` is 1 when the call of `w` is evaluated, but the parameter is bound to 5. -/
theorem currentX_bound_late : LateBinding currentX 1 5 :=
  .of_returns
    (.tail (Run.performs_statement 3 rfl (.unit_of_isSome (by decide +kernel)) (by decide +kernel))
      (.starts (.value rfl (.unit_of_isSome (by decide +kernel)))))
    (.of_isSome (by decide +kernel)) (by decide +kernel) (.of_isSome (by decide +kernel))
    (.of_isSome (by decide +kernel)) (.of_isSome (by decide +kernel)) (by decide +kernel)
    (.unit_of_isSome (by decide +kernel)) (by decide +kernel)

/-! ## A call that is kept in a dictionary -/

theorem Site.Defers.of_returns {depth : Nat} {context : Context} {callee : Path}
    {parts : List Argument} {argumentsSpan span : Span} {definition : Workflow}
    {machine found called : Machine} {pending : Value}
    (resolved : (resolve callee.head callee.tail).Returns machine (.workflow definition) found)
    (returns : (evaluate (depth + 1) context (.call callee parts argumentsSpan span)).Returns
      machine pending called) :
    ∃ tag arguments, pending = .invocation tag definition arguments span ∧
      Site.Defers ⟨depth + 1, context, .expression (.call callee parts argumentsSpan span), machine⟩
        pending arguments called := by
  obtain ⟨arguments, evaluated, evaluates, made⟩ := (returns.rest resolved).steps
  cases made
  exact ⟨_, arguments, rfl, .intro resolved evaluates rfl⟩

/-- The path `d.call`. -/
def keptCall : Expr := .path ⟨⟨"d", .origin⟩, [⟨"call", .origin⟩], .origin⟩

/-- The duration `1sec`. -/
def keptDuration : Expr := .literal (.duration ⟨1, .sec⟩) .origin

/-- Changes a variable while a call is kept: executes `x : integer = 1`,
`d : dictionary = (call = w(x))`, `x = 2` and `return await d.call for 1sec`. -/
def keptRun : Run :=
  let name (text : String) : Identifier := ⟨text, .origin⟩
  let integer (number : Int64) : Expr := .literal (.integer number) .origin
  .ofStatements
    [.workflow lateWorkflow,
    .declaration (name "x") (name "integer") (some (integer 1)) .origin,
    .declaration (name "d") (name "dictionary")
      (some (.dictionary [⟨name "call", lateCall currentX, .origin⟩] .origin)) .origin,
    .assignment ⟨name "x", [], .origin⟩ (integer 2) .origin,
    .returning (.await keptCall keptDuration .origin) .origin] 9

/-- The tag of a pending call and where its only argument is stored, if it all stands at
the origin. -/
def Value.onlyArgument? : Value → Option (Nat × StoredKind × Nat)
  | .invocation tag _ ⟨[⟨0, none, .stored kind address, location⟩], argumentsSpan⟩ span =>
      if location = .origin ∧ argumentsSpan = .origin ∧ span = .origin then
        some (tag, kind, address)
      else none
  | _ => none

/-- Where there is only one workflow, that is all there is to know about such a call. -/
theorem Value.eq_of_onlyArgument? {value : Value} {definition : Workflow}
    {bound tag address : Nat} {kind : StoredKind} (within : value.Within (· = definition) bound)
    (found : value.onlyArgument? = some (tag, kind, address)) :
    value = .invocation tag definition ⟨[⟨0, none, .stored kind address, .origin⟩], .origin⟩
      .origin := by
  unfold Value.onlyArgument? at found
  split at found
  · rw [Option.ite_none_right_eq_some] at found
    obtain ⟨⟨rfl, rfl, rfl⟩, same⟩ := found
    cases same
    cases within with
    | invocation known _ => rw [known]
  · cases found

theorem lateWorkflow_closed : ClosedWorkflows (· = lateWorkflow) := by
  rintro definition rfl statement member other introduced
  cases List.mem_singleton.mp member
  cases introduced

theorem keptRun_sound {site : Site} (performed : keptRun.Performs site) :
    site.machine.Sound (· = lateWorkflow) := by
  have admitted : StatementsAdmitted (· = lateWorkflow) keptRun.program.script.statements := by
    intro statement member definition introduced
    cases introduced with
    | here => simpa [keptRun, Run.ofStatements] using member
    | branch | otherwise | loop => simp [keptRun, Run.ofStatements] at member
  exact (performed.sound lateWorkflow_closed admitted).machine

section

variable {depth : Nat} {context : Context} {machine final : Machine}

theorem keptRun_evaluates {expr : Expr} {value : Value}
    (performed : keptRun.Performs ⟨depth, context, .expression expr, machine⟩)
    (returns : (evaluate depth context expr).Returns machine value final) :
    value.Within (· = lateWorkflow) final.size :=
  (((evaluation_preserves lateWorkflow_closed depth).1 context expr
    (keptRun_sound performed)).returned returns).2

theorem keptRun_awaits {operand duration : Expr} {span : Span} {result : Value × Duration}
    (performed : keptRun.Performs
      ⟨depth + 1, context, .expression (.await operand duration span), machine⟩)
    (returns : (evaluateAwait depth context operand duration).Returns machine result final) :
    result.1.Within (· = lateWorkflow) final.size :=
  ((Site.evaluateAwait_preserves lateWorkflow_closed (keptRun_sound performed) depth context
    operand duration).returned returns).2

end

/-- The dictionary has no copy of the argument, but the variable `x` itself: `x` is 1 when the
call of `w` is evaluated, and the parameter is bound to 2. -/
theorem keptCall_bound_late : ∃ (context : Context) (early late : Machine),
    keptRun.BindsLate ⟨7, context, .expression (lateCall currentX), early⟩
      ⟨8, context, .expression (.await keptCall keptDuration .origin), late⟩ 1 2 := by
  obtain ⟨early, late, callee, found, pending, called, result, ready, after, performedCall,
      performedAwait, resolves, isWorkflow, calls, made, awaits, same, cells, tags, logs, requests,
      given, enters, bound⟩ : ∃ early late callee found pending called result ready after,
      keptRun.Performs ⟨7, keptRun.root.context, .expression (lateCall currentX), early⟩ ∧
      keptRun.Performs ⟨8, keptRun.root.context,
        .expression (.await keptCall keptDuration .origin), late⟩ ∧
      (resolve ⟨"w", .origin⟩ []).Returns early callee found ∧ callee.kind = .workflow ∧
      (evaluate 7 keptRun.root.context (lateCall currentX)).Returns early pending called ∧
      pending.onlyArgument? = some (0, .integer, 2) ∧
      (evaluateAwait 7 keptRun.root.context keptCall keptDuration).Returns late result ready ∧
      result.1.onlyArgument? = some (0, .integer, 2) ∧
      called.store.cells.size ≤ ready.store.cells.size ∧
      called.store.nextTag ≤ ready.store.nextTag ∧
      called.logs.toList <+: ready.logs.toList ∧ called.requests.toList.length = 0 ∧
      called.store.integer? (.stored .integer 2) = some 1 ∧
      (enterWorkflow lateWorkflow ⟨[⟨0, none, .stored .integer 2, .origin⟩], .origin⟩
        .origin).Returns ready () after ∧
      after.scopes.current.bindings.entries.map
        (fun entry => (entry.1, after.store.integer? entry.2)) = [("a", some 2)] :=
    ⟨_, _, _, _, _, _, _, _, _,
      .tail (.tail (Run.performs_statement 2 rfl (.unit_of_isSome (by decide +kernel))
        (by decide +kernel)) (.starts (.declaration (.of_isSome (by decide +kernel)))))
        (.evaluates (@Site.Evaluates.entry _ _ [] _ _ _ _ _ _ (.of_isSome (by decide +kernel)))),
      .tail (Run.performs_statement 4 rfl (.unit_of_isSome (by decide +kernel))
        (by decide +kernel)) (.starts (.value rfl (.unit_of_isSome (by decide +kernel)))),
      .of_isSome (by decide +kernel), by decide +kernel, .of_isSome (by decide +kernel),
      by decide +kernel, .of_isSome (by decide +kernel), by decide +kernel, by decide +kernel,
      by decide +kernel, by decide +kernel, by decide +kernel, by decide +kernel,
      .unit_of_isSome (by decide +kernel), by decide +kernel⟩
  -- Both values are calls of the only workflow, with the same tag and the same argument.
  have pendingIs := Value.eq_of_onlyArgument? (keptRun_evaluates performedCall calls) made
  have awaitedIs := Value.eq_of_onlyArgument? (keptRun_awaits performedAwait awaits) same
  obtain ⟨awaited, timeout⟩ := result
  subst pendingIs awaitedIs
  obtain ⟨definition, rfl⟩ := Value.exists_workflow isWorkflow
  obtain ⟨tag, arguments, pendingIs, defers⟩ := Site.Defers.of_returns resolves calls
  cases pendingIs
  have unrequested : called.requests.toList = [] := List.eq_nil_of_length_eq_zero requests
  have later : called ≤ ready := ⟨⟨cells, tags⟩, logs, unrequested ▸ List.nil_prefix⟩
  exact ⟨_, early, late, called, ready, _, _, _, _, performedCall, defers, performedAwait,
    .intro awaits enters, later, congrArg (fun number => [number]) given, bound⟩

end FlowScript
