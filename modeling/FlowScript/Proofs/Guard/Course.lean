import FlowScript.Proofs.Guard.Evaluation
import FlowScript.Proofs.Storage.Reach
import FlowScript.Proofs.Variable.Course

/-!
# The course of a run under guard

Once a guard holds at the end of a site, it holds wherever the run goes from there: at
the end of what the site is a part of, where the next part starts, and at the parts of
that one. What surrounds a site may have values in hand while the site is evaluated, but
those were made before the site started.
-/

set_option autoImplicit false

namespace FlowScript

open RunM

namespace Guard

/-- All values that can be in hand on the machine are good. -/
def Spares (guard : Guard) (machine : Machine) : Prop :=
  ∀ value : Value, value.Within (fun _ => True) machine.size → guard.good value

/-- The guard holds when the site has ended. -/
def Passes (guard : Guard) (site : Site) : Prop :=
  match site.work with
  | .expression expr =>
      guard.Settles (evaluate site.depth site.context expr) site.machine guard.good
  | .statement statement =>
      guard.Settles (execute site.depth site.context statement) site.machine fun _ => True
  | .sequence statements =>
      guard.Settles (executeAll (execute site.depth site.context) statements) site.machine
        fun _ => True

variable {guard : Guard}

theorem Spares.mono {machine earlier : Machine} (spares : guard.Spares machine)
    (size_le : earlier.size ≤ machine.size) : guard.Spares earlier :=
  fun value within => spares value (within.mono size_le)

section

variable (everywhere : ∀ span, guard.place span)

include everywhere

theorem places_everywhere (spans : List Span) : guard.Places spans := fun span _ => everywhere span

theorem evaluates_everywhere (depth : Nat) (context : Context) (expr : Expr) :
    guard.Keeps (evaluate depth context expr) guard.good :=
  (guard.evaluation depth).1 context expr (places_everywhere everywhere _)

theorem Settles.evaluateAwait {depth : Nat} {context : Context} {operand duration : Expr}
    {machine : Machine}
    (passes : guard.Settles (evaluate depth context operand) machine guard.good) :
    guard.Settles (FlowScript.evaluateAwait depth context operand duration) machine fun result =>
      guard.good result.1 := by
  refine .bind passes fun awaited awaitedGood => ?_
  apply Keeps.bind (evaluates_everywhere everywhere depth context duration)
  intro limit _
  apply Keeps.bind (.expectDuration limit (everywhere _))
  exact fun timeout _ => .pure awaitedGood

theorem Keeps.enterWorkflow {awaited : Value} (awaitedGood : guard.good awaited)
    {span called : Span} {definition : Workflow} {arguments : CallArguments}
    (pending : awaited.pendingCall? span = some (definition, arguments, called)) :
    guard.Keeps (FlowScript.enterWorkflow definition arguments called) fun _ => True := by
  have lends : ∀ argument ∈ arguments.items, guard.Lends argument := by
    cases awaited with
    | invocation =>
        cases pending
        obtain ⟨-, inside, -⟩ := guard.invocation_iff.mp awaitedGood
        exact fun argument member => ⟨everywhere _, (inside argument member).2⟩
    | workflow =>
        cases pending
        simp [CallArguments.empty]
    | void | error | stored | member | builtin => cases pending
  apply Keeps.bind (.report _ _ _)
  intro _ _
  apply Keeps.bind (.narrowing fun stack => stack.narrows_push .function)
  exact fun _ _ => .bindParameters (places_everywhere everywhere _) lends (everywhere _)

theorem Keeps.takeBranch (depth : Nat) (context : Context) (branch : Conditional)
    (rest : List Conditional) (holds : Bool) :
    guard.Keeps (FlowScript.takeBranch depth context branch rest holds) fun _ => True := by
  obtain ⟨evaluates, executes⟩ := guard.evaluation depth
  unfold FlowScript.takeBranch
  split
  · apply Keeps.bind (.runBranch executes context (places_everywhere everywhere _))
    exact fun _ _ => .pure trivial
  · exact .runBranches evaluates executes context (places_everywhere everywhere _)

theorem Keeps.goOn (depth : Nat) (context : Context) (body : Block) (more : Nat)
    (signal : FlowSignal) :
    guard.Keeps (if signal = .proceed then FlowScript.runRounds depth context body more
      else Pure.pure true) fun _ => True := by
  split
  · exact .runRounds (guard.evaluation depth).2 context (places_everywhere everywhere _) more
  · exact .pure trivial

theorem Settles.testCondition {depth : Nat} {context : Context} {expr : Expr} {machine : Machine}
    (passes : guard.Settles (evaluate depth context expr) machine guard.good) :
    guard.Settles (FlowScript.testCondition depth context expr) machine fun _ => True :=
  .bind passes fun _ valueGood => .onStoreAt (everywhere _) (guard.cells.hands_truth valueGood)

/-! ## To the end of what a site is a part of -/

theorem Passes.evaluates {outer inner : Site} (sound : outer.Sound fun _ => True)
    (spares : guard.Spares inner.machine) (evaluates : outer.Evaluates inner)
    (passes : guard.Passes inner) : guard.Passes outer := by
  have closed : ClosedWorkflows fun _ => True := fun _ _ _ _ _ _ => trivial
  have machineSound := sound.machine
  cases evaluates with
  | @argument depth context callee before rest argument argumentsSpan span machine after values
      returns =>
      have parts := (guard.evaluation depth).1 context
      have soundly := (evaluation_preserves closed depth).1 context
      obtain ⟨function, found, resolved, evaluated⟩ := returns.steps
      obtain ⟨foundSound, functionWithin⟩ := (resolve_preserves machineSound _ _).returned resolved
      have none : (CallArguments.empty argumentsSpan).Within (fun _ => True) found.size :=
        fun _ member => by cases member
      have arguments := evaluateArguments_preserves soundly foundSound none before
      have functionGood : guard.good function :=
        spares _ (functionWithin.mono (arguments.keeps evaluated).size_le)
      have doneGood : ∀ argument ∈ values.items, guard.Gives argument := fun argument member =>
        ⟨everywhere _, spares _ ((arguments.returned evaluated).2 argument member)⟩
      refine .of_run (run_argument resolved evaluated) (.bind passes fun value valueGood => ?_)
      apply Keeps.bind (.evaluateArguments parts (gives_push doneGood (everywhere _) valueGood)
        (places_everywhere everywhere _))
      exact fun arguments argumentsGood => .callValue functionGood (places_everywhere everywhere _)
        argumentsGood (everywhere _)
  | @element depth context before rest element span machine after values returns =>
      have parts := (guard.evaluation depth).1 context
      have soundly := (evaluation_preserves closed depth).1 context
      have within := ((evaluateElements_preserves soundly machineSound before).returned returns).2
      refine .of_run (run_element returns) (.bind passes fun value valueGood => ?_)
      apply Keeps.bind (.onStore (guard.cells.hands_detach valueGood))
      intro copy copyGood
      apply Keeps.bind (.evaluateElements parts (places_everywhere everywhere _))
      intro others othersGood
      refine .onStore (guard.cells.hands_allocate .array fun item member => ?_)
      rcases List.mem_append.mp member with old | new
      · exact spares _ (within.within item old)
      · exact List.forall_mem_cons.mpr ⟨copyGood, othersGood⟩ item new
  | @entry depth context before rest entry span machine after values returns =>
      have parts := (guard.evaluation depth).1 context
      have soundly := (evaluation_preserves closed depth).1 context
      have within := ((evaluateEntries_preserves soundly machineSound (.refl machine) .none
        before).returned returns).2
      refine .of_run (run_entry returns) (.bind passes fun value valueGood => ?_)
      apply Keeps.bind (.onStore (guard.cells.hands_detach valueGood))
      intro copy copyGood
      apply Keeps.bind (.evaluateEntries parts (Dictionary.insert_all
        (fun item member => spares _ (within.within item member)) copyGood)
        (places_everywhere everywhere _))
      exact fun entries entriesGood => .onStore (guard.cells.hands_allocate .dictionary entriesGood)
  | @unary depth context op operand span machine =>
      exact .bind passes fun value _ => .onStoreAt (everywhere _) (guard.cells.hands_unary op value)
  | @first depth context first operations span machine =>
      exact .bind passes fun left leftGood => .applyOperations ((guard.evaluation depth).1 context)
        context.program leftGood (places_everywhere everywhere _)
  | @operand depth context first before rest operation span machine after left evaluated
      returns =>
      refine .of_run (run_operand evaluated returns) (.bind passes fun right _ => ?_)
      apply Keeps.bind (.applied (everywhere _) left right)
      exact fun result resultGood => .applyOperations ((guard.evaluation depth).1 context)
        context.program resultGood (places_everywhere everywhere _)
  | @awaited depth context operand duration span machine =>
      refine .bind passes fun awaited awaitedGood => ?_
      apply Keeps.bind (evaluates_everywhere everywhere depth context duration)
      intro limit _
      apply Keeps.bind (.expectDuration limit (everywhere _))
      exact fun timeout _ => .awaitValue (guard.evaluation depth).2 context awaitedGood
        (places_everywhere everywhere _) timeout (everywhere _)
  | @duration depth context operand duration span machine after awaited returns =>
      have soundly := (evaluation_preserves closed depth).1 context
      have awaitedGood := spares _ ((soundly operand machineSound).returned returns).2
      refine .of_run (run_duration returns) (.bind passes fun limit _ => ?_)
      apply Keeps.bind (.expectDuration limit (everywhere _))
      exact fun timeout _ => .awaitValue (guard.evaluation depth).2 context awaitedGood
        (places_everywhere everywhere _) timeout (everywhere _)
  | @attempt depth context operand span machine =>
      refine .bind passes fun value valueGood => ?_
      dsimp only
      split
      · apply Keeps.bind (.report _ _ _)
        intro _ _
        apply Keeps.bind (.setReturn valueGood)
        exact fun _ _ => .pure valueGood
      · exact .pure valueGood

theorem Passes.starts {outer inner : Site} (starts : outer.Starts inner)
    (passes : guard.Passes inner) : guard.Passes outer := by
  cases starts with
  | @declaration depth context name typeName value span machine after kind returns =>
      refine .of_run (run_initializer returns) (.bind passes fun initializer initializerGood => ?_)
      exact .declareVariable context (everywhere _) kind (everywhere _) initializerGood
  | @value depth context statement value machine after owned returns =>
      refine .of_run (run_value owned returns) (.bind passes fun value valueGood => ?_)
      exact .finish context (places_everywhere everywhere _) valueGood
  | @condition depth context first branch others before rest otherwise span machine after split
      returns =>
      refine .of_run (run_execute_branch split returns)
        (.bind (.testCondition everywhere passes) fun holds _ => ?_)
      apply Keeps.bind (.takeBranch everywhere depth context branch rest holds)
      exact fun chosen _ => .runOtherwise (guard.evaluation depth).2 context
        (fun _ _ => places_everywhere everywhere _) chosen

theorem Passes.runs {outer inner : Site} (runs : outer.Runs inner)
    (passes : guard.Passes inner) : guard.Passes outer := by
  cases runs with
  | @first depth context statement rest machine =>
      refine .bind passes fun _ _ => ?_
      apply Keeps.bind .getScopes
      intro scopes _
      split
      · exact .executeAll ((guard.evaluation depth).2 context) (places_everywhere everywhere _)
      · exact .pure trivial
  | @next depth context statement rest machine after returns proceeds =>
      exact .of_run (run_otherStatements returns proceeds) passes
  | @branch depth context first branch others before rest otherwise span machine reached after
      split returns holds =>
      refine .of_run (run_takenBranch split returns holds) (.bind (.runBlock passes) fun _ _ => ?_)
      exact .runOtherwise (guard.evaluation depth).2 context
        (fun _ _ => places_everywhere everywhere _) true
  | @otherwise depth context first others block span machine after returns =>
      exact .of_run (run_lastBranch returns) (.bind (.runBlock passes) fun _ _ => .pure trivial)
  | @round depth context body span rounds machine after below returns =>
      obtain ⟨more, count⟩ := Nat.exists_eq_add_of_lt below
      refine .of_run (run_execute_loop (by omega) returns)
        (.bind (.runBlock passes) fun signal _ => ?_)
      apply Keeps.bind (.goOn everywhere depth context body more signal)
      exact fun signalled _ => .endLoop context signalled

theorem Passes.invokes {outer inner : Site} {definition : Workflow}
    (invokes : outer.Invokes definition inner) (passes : guard.Passes inner) :
    guard.Passes outer := by
  cases invokes with
  | @body depth context operand duration span called awaited timeout _ arguments machine ready
      after evaluated pending enters =>
      obtain ⟨_, announced, announces, enters⟩ := RunM.Returns.steps enters
      obtain ⟨_, entered, pushes, binds⟩ := enters.steps
      cases pushes
      have body : guard.Settles (callBody (execute depth (context.awaiting ready.now timeout))
          definition arguments called) (announced.entering .function) guard.good := by
        refine .behind binds (.bind passes fun _ _ => ?_)
        apply Keeps.bind .getScopes
        intro scopes scopesGood
        apply Keeps.checkResult (places_everywhere everywhere _) _ (everywhere _)
        exact fun value stored => scopesGood.results value (ScopeStack.returnValue?_mem stored)
      have call : guard.Settles (invoke (execute depth (context.awaiting ready.now timeout))
          definition arguments called) ready guard.good := by
        rw [invoke_eq]
        exact .behind announces (.runCall body)
      exact .of_run (run_awaitCall evaluated pending) (.awaitInvocation call)

theorem Passes.enters {outer inner : Site} (sound : outer.Sound fun _ => True)
    (spares : guard.Spares inner.machine) (enters : outer.Enters inner)
    (passes : guard.Passes inner) : guard.Passes outer := by
  cases enters with
  | evaluates evaluates => exact .evaluates everywhere sound spares evaluates passes
  | starts starts => exact .starts everywhere starts passes
  | runs runs => exact .runs everywhere runs passes
  | invokes invokes => exact .invokes everywhere invokes passes

/-! ## To where the next part starts -/

theorem Passes.precedes {machine later : Machine} {left : Site}
    (sound : machine.Sound fun _ => True) (spares : guard.Spares left.machine)
    (passes : guard.Passes left) (precedes : Site.Precedes machine left later) :
    guard.Holds later := by
  have closed : ClosedWorkflows fun _ => True := fun _ _ _ _ _ _ => trivial
  induction precedes with
  | @argument depth context callee before between argument argumentsSpan function values others
      found after later resolved evaluated returns =>
      have soundly := (evaluation_preserves closed depth).1 context
      obtain ⟨foundSound, -⟩ := (resolve_preserves sound _ _).returned resolved
      have none : (CallArguments.empty argumentsSpan).Within (fun _ => True) found.size :=
        fun _ member => by cases member
      have within := (evaluateArguments_preserves soundly foundSound none before).returned evaluated
      have doneGood : ∀ argument ∈ values.items, guard.Gives argument := fun argument member =>
        ⟨everywhere _, spares _ (within.2 argument member)⟩
      have settles : guard.Settles (evaluateArguments (evaluate depth context) values
          (argument :: between)) after fun values =>
            ∀ argument ∈ values.items, guard.Gives argument :=
        .bind passes fun value valueGood => .evaluateArguments ((guard.evaluation depth).1 context)
          (gives_push doneGood (everywhere _) valueGood) (places_everywhere everywhere _)
      exact (settles.returned returns).1
  | @element depth context before between element values others after later evaluated returns =>
      have settles : guard.Settles (evaluateElements (evaluate depth context)
          (element :: between)) after fun _ => True := by
        refine .bind passes fun value valueGood => ?_
        apply Keeps.bind (.onStore (guard.cells.hands_detach valueGood))
        intro copy _
        apply Keeps.bind (.evaluateElements ((guard.evaluation depth).1 context)
          (places_everywhere everywhere _))
        exact fun _ _ => .pure trivial
      exact (settles.returned returns).1
  | @entry depth context before between entry values others after later evaluated returns =>
      have soundly := (evaluation_preserves closed depth).1 context
      have within := ((evaluateEntries_preserves soundly sound (.refl machine) .none
        before).returned evaluated).2
      have settles : guard.Settles (evaluateEntries (evaluate depth context) values
          (entry :: between)) after fun dictionary =>
            ∀ value ∈ dictionary.values, guard.good value := by
        refine .bind passes fun value valueGood => ?_
        apply Keeps.bind (.onStore (guard.cells.hands_detach valueGood))
        intro copy copyGood
        exact .evaluateEntries ((guard.evaluation depth).1 context) (Dictionary.insert_all
          (fun item member => spares _ (within.within item member)) copyGood)
          (places_everywhere everywhere _)
      exact (settles.returned returns).1
  | @first depth context first before value after returns =>
      have settles : guard.Settles (do
          let left ← evaluate depth context first
          applyOperations (evaluate depth context) context.program left before) machine
          guard.good :=
        .bind passes fun left leftGood => .applyOperations ((guard.evaluation depth).1 context)
          context.program leftGood (places_everywhere everywhere _)
      exact (settles.returned returns).1
  | @operand depth context first before between operation left value after later evaluated returns
      operates =>
      rw [applyOperations_cons, applyOperation_eq _ _ _ evaluated, bind_assoc] at operates
      have settles : guard.Settles (do
          let right ← evaluate depth context operation.operand
          let result ← onStoreAt operation.span (operation.applied left right)
          applyOperations (evaluate depth context) context.program result between) after
          guard.good := by
        refine .bind passes fun right _ => ?_
        apply Keeps.bind (.applied (everywhere _) left right)
        exact fun result resultGood => .applyOperations ((guard.evaluation depth).1 context)
          context.program resultGood (places_everywhere everywhere _)
      exact (settles.returned operates).1
  | awaited returns => exact (passes.returned returns).1
  | @call depth context operand duration span called awaited timeout definition arguments ready
      after evaluated pending enters =>
      obtain ⟨holds, awaitedGood⟩ := (Settles.evaluateAwait everywhere passes).returned evaluated
      exact (((Keeps.enterWorkflow everywhere awaitedGood pending).settles holds).returned enters).1
  | @duration depth context operand duration span called awaited limit timeout definition
      arguments middle limited ready after returns limits expects pending enters =>
      have soundly := (evaluation_preserves closed depth).1 context
      have awaitedGood := spares _ ((soundly operand sound).returned returns).2
      obtain ⟨limitedHolds, -⟩ := passes.returned limits
      obtain ⟨holds, -⟩ := ((Keeps.expectDuration limit (everywhere _)).settles
        limitedHolds).returned expects
      exact (((Keeps.enterWorkflow everywhere awaitedGood pending).settles holds).returned enters).1
  | @condition depth context statement before between branch after later untaken more =>
      have settles : guard.Settles (do
          let holds ← testCondition depth context branch.condition
          takeBranch depth context branch between holds) after fun _ => True :=
        .bind (.testCondition everywhere passes) fun holds _ =>
          .takeBranch everywhere depth context branch between holds
      exact (settles.returned (untaken.rest more)).1
  | @tested depth context statement before expr holds reached after untaken tests =>
      exact ((Settles.testCondition everywhere passes).returned tests).1
  | @testing depth context left expr holds reached after _ tests ih =>
      exact (((Keeps.testCondition (guard.evaluation depth).1 context
        (places_everywhere everywhere _)).settles (ih spares passes)).returned tests).1
  | entering _ ih => exact (ih spares passes).narrow (ScopeStack.narrows_push _ _)
  | @round depth context statement body rounds more after later returns laterReturns =>
      obtain ⟨_, announced, announces, repeated⟩ := returns.steps
      have goesOn := laterReturns.rest announces
      rw [runRounds_add] at goesOn
      have settles : guard.Settles (do
          let signal ← runBlock (execute depth context) .loop body
          if signal = .proceed then runRounds depth context body more else pure true) after
          fun _ => True :=
        .bind (.runBlock passes) fun signal _ => .goOn everywhere depth context body more signal
      exact (settles.returned (goesOn.rest repeated)).1
  | statement returns => exact (passes.returned returns).1

/-! ## To the parts of a site -/

theorem Holds.evaluates {outer inner : Site} (holds : guard.Holds outer.machine)
    (evaluates : outer.Evaluates inner) : guard.Holds inner.machine := by
  cases evaluates with
  | @argument depth context callee before rest argument argumentsSpan span machine after values
      returns =>
      obtain ⟨function, found, resolved, evaluated⟩ := returns.steps
      have resolves : guard.Keeps (resolve callee.head callee.tail) guard.good :=
        .resolve (everywhere _) (places_everywhere everywhere _)
      have none : ∀ argument ∈ (CallArguments.empty argumentsSpan).items, guard.Gives argument := by
        simp [CallArguments.empty]
      have evaluates := Keeps.evaluateArguments ((guard.evaluation depth).1 context) none
        (places_everywhere everywhere (Argument.allSpans before))
      have foundHolds := ((resolves.settles holds).returned resolved).1
      exact ((evaluates.settles foundHolds).returned evaluated).1
  | @element depth context before rest element span machine after values returns =>
      have evaluates := Keeps.evaluateElements ((guard.evaluation depth).1 context)
        (places_everywhere everywhere (Expr.allSpans before))
      exact ((evaluates.settles holds).returned returns).1
  | @entry depth context before rest entry span machine after values returns =>
      have none : ∀ value ∈ (Dictionary.empty : Dictionary Value).values, guard.good value := by
        simp [Dictionary.values, Dictionary.empty]
      have evaluates := Keeps.evaluateEntries ((guard.evaluation depth).1 context) none
        (places_everywhere everywhere (Entry.allSpans before))
      exact ((evaluates.settles holds).returned returns).1
  | @operand depth context first before rest operation span machine after left evaluated
      returns =>
      have applies : guard.Keeps (do
          let left ← evaluate depth context first
          applyOperations (evaluate depth context) context.program left before) guard.good :=
        .bind (evaluates_everywhere everywhere depth context first) fun left leftGood =>
          .applyOperations ((guard.evaluation depth).1 context) context.program leftGood
            (places_everywhere everywhere _)
      exact ((applies.settles holds).returned returns).1
  | @duration depth context operand duration span machine after awaited returns =>
      exact (((evaluates_everywhere everywhere depth context operand).settles holds).returned
        returns).1
  | unary | first | awaited | attempt => exact holds

theorem Holds.untaken {depth : Nat} {context : Context} {statement : Statement}
    {machine after : Machine} {branches : List Conditional} (holds : guard.Holds machine)
    (untaken : Site.Untaken depth context statement machine branches after) :
    guard.Holds after := by
  obtain ⟨evaluates, executes⟩ := guard.evaluation depth
  have tries : guard.Keeps (do
      announce context statement
      runBranches depth context branches) fun _ => True :=
    .bind (.announce context statement) fun _ _ =>
      .runBranches evaluates executes context (places_everywhere everywhere _)
  exact ((tries.settles holds).returned untaken).1

theorem Holds.starts {outer inner : Site} (holds : guard.Holds outer.machine)
    (starts : outer.Starts inner) : guard.Holds inner.machine := by
  cases starts with
  | declaration returns =>
      obtain ⟨_, announced, announces, resolved⟩ := returns.steps
      obtain ⟨announcedHolds, -⟩ := ((Keeps.announce _ _).settles holds).returned announces
      exact (((Keeps.resolveKind (everywhere _)).settles announcedHolds).returned resolved).1
  | value _ returns => exact (((Keeps.announce _ _).settles holds).returned returns).1
  | condition _ returns => exact holds.untaken everywhere returns

theorem Holds.runs {outer inner : Site} (holds : guard.Holds outer.machine)
    (runs : outer.Runs inner) : guard.Holds inner.machine := by
  cases runs with
  | first => exact holds
  | @next depth context statement rest machine after returns proceeds =>
      have executes := (guard.evaluation depth).2 context statement
        (places_everywhere everywhere _)
      exact ((executes.settles holds).returned returns).1
  | @branch depth context first branch others before rest otherwise span machine reached after
      split returns tests =>
      have reachedHolds := holds.untaken everywhere returns
      have judges := Keeps.testCondition (guard.evaluation depth).1 context
        (places_everywhere everywhere branch.condition.spans)
      exact ((judges.settles reachedHolds).returned tests).1.narrow (ScopeStack.narrows_push _ _)
  | otherwise returns =>
      exact (holds.untaken everywhere returns).narrow (ScopeStack.narrows_push _ _)
  | @round depth context body span rounds machine after below returns =>
      have rounds : guard.Keeps (do
          announce context (.loop body span)
          runRounds depth context body rounds) fun _ => True :=
        .bind (.announce context _) fun _ _ => .runRounds (guard.evaluation depth).2 context
          (places_everywhere everywhere _) rounds
      exact ((rounds.settles holds).returned returns).1.narrow (ScopeStack.narrows_push _ _)

theorem Holds.enters {outer inner : Site} (holds : guard.Holds outer.machine)
    (enters : outer.Enters inner) : guard.Holds inner.machine := by
  cases enters with
  | evaluates evaluates => exact holds.evaluates everywhere evaluates
  | starts starts => exact holds.starts everywhere starts
  | runs runs => exact holds.runs everywhere runs
  | invokes invokes =>
      cases invokes with
      | @body depth context operand duration span called awaited timeout _ arguments machine ready
          after evaluated pending enters =>
          have awaits := (evaluates_everywhere everywhere depth context operand).settles holds
          obtain ⟨readyHolds, awaitedGood⟩ :=
            (Settles.evaluateAwait everywhere awaits).returned evaluated
          exact (((Keeps.enterWorkflow everywhere awaitedGood pending).settles readyHolds).returned
            enters).1

/-! ## Along a run -/

/-- The guard holds wherever a site goes after one of the sites it leads to has ended. -/
theorem Passes.carried {site left right : Site} (sound : site.Sound fun _ => True)
    (path : Relation.ReflTransGen Site.Enters site left)
    (other : Relation.ReflTransGen Site.Enters site right) (spares : guard.Spares left.machine)
    (passes : guard.Passes left) (later : left.final < right.machine) :
    guard.Holds right.machine := by
  have closed : ClosedWorkflows fun _ => True := fun _ _ _ _ _ _ => trivial
  have outlasts : ∀ {site}, site.Sound (fun _ => True) →
      Relation.ReflTransGen Site.Enters site left → guard.Passes site := by
    intro site sound path
    induction path using Relation.ReflTransGen.head_induction_on with
    | refl => exact passes
    | @head outer inner enters rest ih =>
        have before : inner.machine ≤ left.machine :=
          (Site.Covers.leads ⟨left, rest, .inl rfl⟩).grows
        exact .enters everywhere sound (spares.mono before.store.1) enters
          (ih (sound.enters closed enters))
  have reaches : ∀ {site}, guard.Holds site.machine →
      Relation.ReflTransGen Site.Enters site right → guard.Holds right.machine := by
    intro site holds path
    induction path using Relation.ReflTransGen.head_induction_on with
    | refl => exact holds
    | head enters _ ih => exact ih (holds.enters everywhere enters)
  have starts : left.machine ≤ left.final := left.leads_final.grows
  induction path using Relation.ReflTransGen.head_induction_on with
  | refl =>
      have within := Site.Covers.leads_final ⟨right, other, .inl rfl⟩
      exact absurd (lt_of_lt_of_le later within.grows) (lt_irrefl _)
  | @head site part enters rest ih =>
      have partSound := sound.enters closed enters
      have before : part.machine ≤ left.machine :=
        (Site.Covers.leads ⟨left, rest, .inl rfl⟩).grows
      rcases other.cases_head with rfl | ⟨otherPart, otherEnters, otherRest⟩
      · have around := enters.surrounds.starts.grows
        exact absurd (lt_of_lt_of_le later (le_trans around (le_trans before starts)))
          (lt_irrefl _)
      · rcases enters.inTurn otherEnters with rfl | precedes | follows
        · exact ih partSound otherRest
        · refine reaches ?_ otherRest
          exact (outlasts partSound rest).precedes everywhere sound.machine
            (spares.mono before.store.1) precedes
        · have ended := (Site.Covers.leads_final ⟨right, otherRest, .inl rfl⟩).grows
          have after := le_trans ended (le_trans follows.leads.grows (le_trans before starts))
          exact absurd (lt_of_lt_of_le later after) (lt_irrefl _)

end

end Guard

end FlowScript
