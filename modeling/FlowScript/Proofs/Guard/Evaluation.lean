import FlowScript.Proofs.Guard.Machine

/-!
# Evaluation under guard

Evaluation only does to values what operations on values do, so it keeps machines under
guard. What it can fail at are the spans of its own parts, of arguments, and of the calls
that pending calls remember.
-/

set_option autoImplicit false

namespace FlowScript

open RunM

namespace Guard

/-- Expressions whose spans are places keep machines under guard. -/
def Evaluates (guard : Guard) (evaluate : Expr → RunM Value) : Prop :=
  ∀ expr : Expr, guard.Places expr.spans → guard.Keeps (evaluate expr) guard.good

def Executes (guard : Guard) (execute : Statement → RunM Unit) : Prop :=
  ∀ statement : Statement, guard.Places statement.spans →
    guard.Keeps (execute statement) fun _ => True

variable {guard : Guard}

theorem Places.splitLast {path : Path} (spans : guard.Places path.spans)
    {before : List Identifier} {last : Identifier} (parts : path.splitLast = (before, last)) :
    guard.Places (before.map (·.span)) ∧ guard.place last.span := by
  cases parts
  have segments : ∀ segment ∈ path.segments, guard.place segment.span :=
    fun segment member => spans (List.mem_cons_of_mem _ (List.mem_map_of_mem member))
  constructor
  · intro span member
    obtain ⟨segment, inside, same⟩ := List.mem_map.mp member
    subst same
    exact segments segment (List.dropLast_subset _ inside)
  · exact segments _ (List.getLast_mem _)

/-! ## Scopes and deadlines -/

theorem Keeps.timeoutError (location : Span) :
    guard.Keeps (FlowScript.timeoutError location) guard.good :=
  .onStore (guard.cells.hands_newError _ _)

namespace Settles

variable {machine : Machine}

theorem runBlock {execute : Statement → RunM Unit} {kind : ScopeKind} {block : Block}
    (inside : guard.Settles (FlowScript.executeAll execute block.statements)
      (machine.entering kind) fun _ => True) :
    guard.Settles (FlowScript.runBlock execute kind block) machine fun _ => True := by
  unfold Settles After at inside ⊢
  rw [run_runBlock]
  cases ran : (FlowScript.executeAll execute block.statements).run.run (machine.entering kind) with
  | mk outcome final =>
      rw [ran] at inside
      cases outcome with
      | ok value => exact ⟨inside.1.narrow final.scopes.narrows_pop, trivial⟩
      | error interruption =>
          dsimp only
          split
          · exact ⟨inside.1.narrow (final.scopes.narrows_truncate _), inside.2⟩
          · exact inside

theorem runCall {execute : Statement → RunM Unit} {definition : Workflow}
    {arguments : CallArguments} {location : Span}
    (inside : guard.Settles (FlowScript.callBody execute definition arguments location)
      (machine.entering .function) guard.good) :
    guard.Settles (FlowScript.runCall execute definition arguments location) machine
      guard.good := by
  unfold Settles After at inside ⊢
  rw [run_runCall]
  cases ran : (FlowScript.callBody execute definition arguments location).run.run
      (machine.entering .function) with
  | mk outcome final =>
      rw [ran] at inside
      cases outcome with
      | ok value => exact ⟨inside.1.narrow (final.scopes.narrows_truncate _), inside.2⟩
      | error interruption =>
          dsimp only
          split
          · exact ⟨inside.1.narrow (final.scopes.narrows_truncate _), inside.2⟩
          · exact inside

theorem awaitInvocation {execute : Context → Statement → RunM Unit} {context : Context}
    {definition : Workflow} {arguments : CallArguments} {called location : Span}
    {timeout : Duration}
    (inside : guard.Settles (invoke (execute (context.awaiting machine.now timeout)) definition
      arguments called) machine guard.good) :
    guard.Settles
      (FlowScript.awaitInvocation execute context definition arguments called timeout location)
      machine guard.good := by
  have answers : guard.Keeps (answerTimeout definition location) guard.good :=
    .bind (.report _ _ _) fun _ _ => .timeoutError location
  unfold Settles After at inside ⊢
  rw [run_awaitInvocation]
  cases ran : (invoke (execute (context.awaiting machine.now timeout)) definition arguments
      called).run.run machine with
  | mk outcome final =>
      rw [ran] at inside
      cases outcome with
      | ok value => exact inside
      | error interruption =>
          dsimp only
          split
          · exact answers _ (inside.1.narrow (final.scopes.narrows_truncate _))
          · exact inside

end Settles

namespace Keeps

/-! ## Paths and calls -/

theorem followPath {value : Value} (valueGood : guard.good value) {segments : List Identifier}
    (spans : guard.Places (segments.map (·.span))) :
    guard.Keeps (FlowScript.followPath value segments) guard.good := by
  induction segments generalizing value with
  | nil => exact .pure valueGood
  | cons segment rest ih =>
      rw [List.map_cons, places_cons] at spans
      apply Keeps.bind (.onStoreAt spans.1 (guard.cells.hands_property valueGood _))
      intro next nextGood
      exact ih nextGood spans.2

theorem resolve {head : Identifier} {tail : List Identifier} (own : guard.place head.span)
    (spans : guard.Places (tail.map (·.span))) :
    guard.Keeps (FlowScript.resolve head tail) guard.good := by
  apply Keeps.bind .getScopes
  intro scopes scopesGood
  split
  · next value found => exact .followPath (scopesGood.lookup? found) spans
  · exact .fail own

theorem resolvePath {path : Path} (spans : guard.Places path.spans) :
    guard.Keeps (FlowScript.resolve path.head path.tail) guard.good := by
  simp only [Path.spans, Path.segments, List.map_cons, places_cons] at spans
  exact .resolve spans.2.1 spans.2.2

theorem resolveKind {name : Identifier} (own : guard.place name.span) :
    guard.Keeps (FlowScript.resolveKind name) fun _ => True := by
  unfold FlowScript.resolveKind
  split
  · exact .pure trivial
  · exact .fail own

theorem callBuiltin (function : Builtin) (arguments : CallArguments) {span : Span}
    (own : guard.place span) :
    guard.Keeps (FlowScript.callBuiltin function arguments span) guard.good := by
  apply Keeps.bind .getStore
  intro store _
  cases function with
  | print | println =>
      apply Keeps.bind (.report _ _ _)
      exact fun _ _ => .pure guard.void
  | panic => exact .fail own
  | strFormat =>
      apply Keeps.bind (.ofExcept own fun _ _ => trivial)
      intro text _
      exact .onStore (guard.cells.hands_newScalar _)

theorem callValue {callee : Value} (calleeGood : guard.good callee) {path : Path}
    (spans : guard.Places path.spans) {arguments : CallArguments}
    (argumentsGood : ∀ argument ∈ arguments.items, guard.Gives argument) {span : Span}
    (own : guard.place span) :
    guard.Keeps (FlowScript.callValue callee path arguments span) guard.good := by
  have values : ∀ argument ∈ arguments.items, guard.good argument.value :=
    fun argument member => (argumentsGood argument member).value
  cases callee with
  | builtin =>
      apply Keeps.bind (.report _ _ _)
      exact fun _ _ => .callBuiltin _ arguments own
  | member function receiver =>
      have receiverGood := guard.member_iff.mp calleeGood
      apply Keeps.bind (.report _ _ _)
      exact fun _ _ => .onStoreAt own (guard.cells.hands_callMember _ receiverGood values)
  | workflow definition =>
      apply Keeps.onStore
      apply guard.cells.hands_newInvocation
      intro tag
      exact guard.invocation_iff.mpr ⟨guard.workflow_iff.mp calleeGood,
        fun argument member => ⟨(argumentsGood argument member).location,
          guard.lent_of_good (values argument member)⟩, own⟩
  | void | error | stored | invocation =>
      apply Keeps.fail
      simp only [Path.spans, places_cons] at spans
      exact spans.1

/-! ## Parameters and results -/

theorem chooseArgument {arguments : CallArguments}
    (argumentsGood : ∀ argument ∈ arguments.items, guard.Lends argument) {location : Span}
    (called : guard.place location) (parameter : Parameter) {unnamed : List CallArgument}
    (unnamedGood : ∀ argument ∈ unnamed, guard.Lends argument) :
    guard.Keeps (FlowScript.chooseArgument arguments location parameter unnamed) fun chosen =>
      guard.Lends chosen.1 ∧ ∀ argument ∈ chosen.2, guard.Lends argument := by
  unfold FlowScript.chooseArgument
  split
  · next argument named =>
      exact .pure ⟨argumentsGood argument (List.mem_of_find?_eq_some named), unnamedGood⟩
  · exact .pure (List.forall_mem_cons.mp unnamedGood)
  · exact .fail called

theorem bindArgument {parameter : Parameter} (spans : guard.Places parameter.spans)
    (expected : Kind)
    {argument : CallArgument} (argumentGood : guard.Lends argument) :
    guard.Keeps (FlowScript.bindArgument parameter expected argument) fun _ => True := by
  unfold FlowScript.bindArgument
  split
  · apply Keeps.bind (.onStore (guard.detach argumentGood.value))
    intro copy copyGood
    exact .declare (spans List.mem_cons_self) copyGood
  · exact .fail argumentGood.location

theorem bindEach {arguments : CallArguments}
    (argumentsGood : ∀ argument ∈ arguments.items, guard.Lends argument) {location : Span}
    (called : guard.place location) {parameters : List Parameter}
    (spans : ∀ parameter ∈ parameters, guard.Places parameter.spans) {unnamed : List CallArgument}
    (unnamedGood : ∀ argument ∈ unnamed, guard.Lends argument) :
    guard.Keeps (FlowScript.bindEach arguments location parameters unnamed) fun _ => True := by
  induction parameters generalizing unnamed with
  | nil => exact .pure trivial
  | cons parameter rest ih =>
      obtain ⟨own, others⟩ := List.forall_mem_cons.mp spans
      rw [bindEach_cons]
      apply Keeps.bind (.resolveKind (own (by simp [Parameter.spans])))
      intro expected _
      apply Keeps.bind (.chooseArgument argumentsGood called parameter unnamedGood)
      intro chosen chosenGood
      apply Keeps.bind (.bindArgument own expected chosenGood.1)
      exact fun _ _ => ih others chosenGood.2

theorem bindParameters {definition : Workflow} (spans : guard.Places definition.spans)
    {arguments : CallArguments}
    (argumentsGood : ∀ argument ∈ arguments.items, guard.Lends argument) {location : Span}
    (called : guard.place location) :
    guard.Keeps (FlowScript.bindParameters definition arguments location) fun _ => True := by
  unfold FlowScript.bindParameters
  dsimp only
  split
  · split
    · next argument found =>
        exact .fail (argumentsGood argument (List.mem_of_find?_eq_some found)).location
    · apply Keeps.bindEach argumentsGood called
      · exact fun parameter member =>
          spans.mono (Workflow.parameter_subset (List.Subset.refl _) member)
      · exact fun argument member => argumentsGood argument (List.mem_filter.mp member).1
  · exact .fail called

theorem checkResult {definition : Workflow} (spans : guard.Places definition.spans)
    {result : Option Value} (resultGood : ∀ value, result = some value → guard.good value)
    {location : Span} (called : guard.place location) :
    guard.Keeps (FlowScript.checkResult definition result location) guard.good := by
  have declares : guard.Keeps (declaredKind definition) fun _ => True := by
    unfold declaredKind
    split
    · next name declared =>
        exact .resolveKind (spans (Workflow.returnType_mem (List.Subset.refl _) declared))
    · exact .pure trivial
  rw [checkResult_eq]
  apply Keeps.bind declares
  intro declared _
  unfold fitResult
  split
  · split
    · exact .pure guard.void
    · exact .fail called
  · split
    · exact .pure (resultGood _ rfl)
    · exact .fail called

/-! ## Walking through parts -/

section

variable {evaluate : Expr → RunM Value} (evaluates : guard.Evaluates evaluate)

include evaluates

theorem evaluateArguments {done : CallArguments}
    (doneGood : ∀ argument ∈ done.items, guard.Gives argument) {arguments : List Argument}
    (spans : guard.Places (Argument.allSpans arguments)) :
    guard.Keeps (FlowScript.evaluateArguments evaluate done arguments) fun values =>
      ∀ argument ∈ values.items, guard.Gives argument := by
  induction arguments generalizing done with
  | nil => exact .pure doneGood
  | cons argument rest ih =>
      obtain ⟨name, value, span⟩ := argument
      simp only [Argument.allSpans, places_cons, places_append] at spans
      obtain ⟨own, -, inside, others⟩ := spans
      apply Keeps.bind (evaluates value inside)
      exact fun result resultGood => ih (gives_push doneGood own resultGood) others

theorem evaluateCopy {expr : Expr} (spans : guard.Places expr.spans) :
    guard.Keeps (FlowScript.evaluateCopy evaluate expr) guard.good := by
  apply Keeps.bind (evaluates expr spans)
  intro value valueGood
  exact .onStore (guard.cells.hands_detach valueGood)

theorem evaluateElements {elements : List Expr} (spans : guard.Places (Expr.allSpans elements)) :
    guard.Keeps (FlowScript.evaluateElements evaluate elements) fun values =>
      ∀ value ∈ values, guard.good value := by
  induction elements with
  | nil => exact .pure (List.forall_mem_nil _)
  | cons element rest ih =>
      simp only [Expr.allSpans, places_append] at spans
      rw [evaluateElements_cons]
      apply Keeps.bind (.evaluateCopy evaluates spans.1)
      intro copy copyGood
      apply Keeps.bind (ih spans.2)
      intro copies copiesGood
      exact .pure (List.forall_mem_cons.mpr ⟨copyGood, copiesGood⟩)

theorem evaluateEntries {done : Dictionary Value}
    (doneGood : ∀ value ∈ done.values, guard.good value) {entries : List Entry}
    (spans : guard.Places (Entry.allSpans entries)) :
    guard.Keeps (FlowScript.evaluateEntries evaluate done entries) fun dictionary =>
      ∀ value ∈ dictionary.values, guard.good value := by
  induction entries generalizing done with
  | nil => exact .pure doneGood
  | cons entry rest ih =>
      obtain ⟨key, value, span⟩ := entry
      simp only [Entry.allSpans, places_cons, places_append] at spans
      obtain ⟨-, -, inside, others⟩ := spans
      rw [evaluateEntries_cons]
      apply Keeps.bind (.evaluateCopy evaluates inside)
      intro copy copyGood
      exact ih (Dictionary.insert_all doneGood copyGood) others

omit evaluates in
theorem typeTest (program : Program) (value : Value) {operand : Expr}
    (spans : guard.Places operand.spans) :
    guard.Keeps (FlowScript.typeTest program value operand) guard.good := by
  unfold FlowScript.typeTest
  dsimp only
  split
  · exact .onStore (guard.cells.hands_newScalar _)
  · exact .fail (spans operand.span_mem)

omit evaluates in
theorem applied {operation : Operation} (own : guard.place operation.span) (left right : Value) :
    guard.Keeps (RunM.onStoreAt operation.span (operation.applied left right)) guard.good := by
  unfold Operation.applied
  split
  · exact .onStoreAt own (guard.cells.hands_binary _ _ _)
  · exact .onStoreAt own (guard.cells.hands_binary _ _ _)

theorem applyOperation (program : Program) (left : Value) {operation : Operation}
    (own : guard.place operation.span) (spans : guard.Places operation.operand.spans) :
    guard.Keeps (FlowScript.applyOperation evaluate program left operation)
      guard.good := by
  by_cases tests : operation.op = .isA
  · unfold FlowScript.applyOperation
    rw [tests]
    exact .typeTest program left spans
  · rw [applyOperation_eq _ _ _ tests]
    apply Keeps.bind (evaluates operation.operand spans)
    exact fun right _ => .applied own left right

theorem applyOperations (program : Program) {left : Value} (leftGood : guard.good left)
    {operations : List Operation} (spans : guard.Places (Operation.allSpans operations)) :
    guard.Keeps (FlowScript.applyOperations evaluate program left operations)
      guard.good := by
  induction operations generalizing left with
  | nil => exact .pure leftGood
  | cons operation rest ih =>
      obtain ⟨op, operand, span⟩ := operation
      simp only [Operation.allSpans, places_cons, places_append] at spans
      rw [applyOperations_cons]
      apply Keeps.bind (.applyOperation evaluates program left spans.1 spans.2.1)
      exact fun result resultGood => ih resultGood spans.2.2

end

theorem repeatUntilSignal {body : RunM FlowSignal} (locates : guard.Keeps body fun _ => True)
    (rounds : Nat) :
    guard.Keeps (FlowScript.repeatUntilSignal body rounds) fun _ => True := by
  induction rounds with
  | zero => exact .pure trivial
  | succ rounds ih =>
      apply Keeps.bind locates
      intro signal _
      split
      · exact ih
      · exact .pure trivial

theorem runFirstBranch {condition : Expr → RunM Bool} {run : Block → RunM Unit}
    (tests : ∀ expr : Expr, guard.Places expr.spans → guard.Keeps (condition expr) fun _ => True)
    (runs : ∀ block : Block, guard.Places block.spans → guard.Keeps (run block) fun _ => True)
    {branches : List Conditional} (spans : guard.Places (Conditional.allSpans branches)) :
    guard.Keeps (FlowScript.runFirstBranch condition run branches) fun _ => True := by
  induction branches with
  | nil => exact .pure trivial
  | cons branch rest ih =>
      obtain ⟨test, body, span⟩ := branch
      simp only [Conditional.allSpans, Conditional.spans, places_append,
        places_cons] at spans
      obtain ⟨⟨-, inTest, inBody⟩, others⟩ := spans
      apply Keeps.bind (tests test inTest)
      intro holds _
      cases holds with
      | true =>
          apply Keeps.bind (runs body inBody)
          exact fun _ _ => .pure trivial
      | false => exact ih others

section

variable {execute : Statement → RunM Unit} (executes : guard.Executes execute)

include executes

theorem executeAll {statements : List Statement}
    (spans : guard.Places (Statement.allSpans statements)) :
    guard.Keeps (FlowScript.executeAll execute statements) fun _ => True := by
  induction statements with
  | nil => exact .pure trivial
  | cons statement rest ih =>
      simp only [Statement.allSpans, places_append] at spans
      apply Keeps.bind (executes statement spans.1)
      intro _ _
      apply Keeps.bind .getScopes
      intro scopes _
      split
      · exact ih spans.2
      · exact .pure trivial

theorem runBlock (kind : ScopeKind) {block : Block} (spans : guard.Places block.spans) :
    guard.Keeps (FlowScript.runBlock execute kind block) fun _ => True :=
  fun machine start => Settles.runBlock
    ((executeAll executes (spans.mono (Block.statements_subset (List.Subset.refl _)))).settles
      (start.narrow (machine.scopes.narrows_push kind)))

theorem callBody {definition : Workflow} (spans : guard.Places definition.spans)
    {arguments : CallArguments}
    (argumentsGood : ∀ argument ∈ arguments.items, guard.Lends argument) {location : Span}
    (called : guard.place location) :
    guard.Keeps (FlowScript.callBody execute definition arguments location)
      guard.good := by
  apply Keeps.bind (.bindParameters spans argumentsGood called)
  intro _ _
  apply Keeps.bind (.executeAll executes (spans.mono (Workflow.body_subset (List.Subset.refl _))))
  intro _ _
  apply Keeps.bind .getScopes
  intro scopes scopesGood
  apply Keeps.checkResult spans _ called
  exact fun value stored => scopesGood.results value (ScopeStack.returnValue?_mem stored)

theorem invoke {definition : Workflow} (spans : guard.Places definition.spans)
    {arguments : CallArguments}
    (argumentsGood : ∀ argument ∈ arguments.items, guard.Lends argument) {location : Span}
    (called : guard.place location) :
    guard.Keeps (FlowScript.invoke execute definition arguments location)
      guard.good := by
  rw [invoke_eq]
  apply Keeps.bind (.report _ _ _)
  exact fun _ _ machine start => Settles.runCall
    ((callBody executes spans argumentsGood called).settles
      (start.narrow (machine.scopes.narrows_push .function)))

end

/-! ## Awaiting -/

theorem expectDuration (value : Value) {location : Span} (own : guard.place location) :
    guard.Keeps (FlowScript.expectDuration value location) fun _ => True := by
  apply Keeps.bind .getStore
  intro store _
  split
  · exact .pure trivial
  · exact .fail own

theorem askService (service : Service) (delegate : Delegate) (payload : JsonObject)
    (context : Context) :
    guard.Keeps (FlowScript.askService service delegate payload context) fun _ => True := by
  apply Keeps.bind (.recordRequest _ _)
  intro _ _
  apply Keeps.bind .get
  intro _ _
  apply Keeps.bind (.reportAll _)
  intro _ _
  apply Keeps.bind (.wait _ _)
  exact fun _ _ => .pure trivial

theorem askHost (context : Context) (kind : HostKind) (timeout : Duration) (location : Span)
    (service : Service) (delegate : Delegate) (reply : HostKind) (payload : JsonObject) :
    guard.Keeps (FlowScript.askHost context kind timeout location service delegate reply payload)
      guard.good := by
  apply Keeps.bind (.withTimeout (.askService service delegate payload))
  intro answer _
  split
  · apply Keeps.onStore
    apply Keeping.bind (guard.cells.hands_ofJsonObject _)
    intro entries entriesGood
    exact guard.cells.hands_allocate _ entriesGood
  · apply Keeps.bind (.report _ _ _)
    exact fun _ _ => .onStore (guard.cells.hands_newError _ _)
  · apply Keeps.bind (.report _ _ _)
    exact fun _ _ => .timeoutError location

theorem awaitHost (context : Context) (kind : HostKind) (request : Value) (timeout : Duration)
    {location : Span} (own : guard.place location) :
    guard.Keeps (FlowScript.awaitHost context kind request timeout location)
      guard.good := by
  rw [awaitHost_eq]
  split
  · exact .fail own
  · apply Keeps.bind .getStore
    intro store _
    apply Keeps.bind (.report _ _ _)
    exact fun _ _ => .askHost _ _ _ _ _ _ _ _

section

variable {execute : Context → Statement → RunM Unit}
  (executes : ∀ context, guard.Executes (execute context))

include executes

theorem awaitInvocation (context : Context) {definition : Workflow}
    (spans : guard.Places definition.spans) {arguments : CallArguments}
    (argumentsGood : ∀ argument ∈ arguments.items, guard.Lends argument) {called : Span}
    (calledGood : guard.place called) (timeout : Duration) (location : Span) :
    guard.Keeps
      (FlowScript.awaitInvocation execute context definition arguments called timeout location)
      guard.good :=
  fun _ start => Settles.awaitInvocation
    ((Keeps.invoke (executes _) spans argumentsGood calledGood).settles start)

theorem awaitValue (context : Context) {awaited : Value} (awaitedGood : guard.good awaited)
    {operand : Expr} (spans : guard.Places operand.spans) (timeout : Duration) {location : Span}
    (own : guard.place location) :
    guard.Keeps (FlowScript.awaitValue execute context awaited operand timeout location)
      guard.good := by
  have unawaitable : guard.Keeps (RunM.fail (.notAwaitable awaited.kind) operand.span)
      guard.good := .fail (spans operand.span_mem)
  cases awaited with
  | invocation tag definition arguments called =>
      obtain ⟨inside, lends, calledPlace⟩ := guard.invocation_iff.mp awaitedGood
      exact .awaitInvocation executes context inside
        (fun argument member => ⟨(lends argument member).1, (lends argument member).2⟩) calledPlace
        timeout location
  | workflow definition =>
      have none : ∀ argument ∈ (CallArguments.empty location).items, guard.Lends argument := by
        simp [CallArguments.empty]
      exact .awaitInvocation executes context (guard.workflow_iff.mp awaitedGood) none own timeout
        location
  | stored kind address =>
      cases kind with
      | host kind =>
          unfold FlowScript.awaitValue
          dsimp only
          split
          · exact .awaitHost context kind _ timeout own
          · exact unawaitable
      | _ => exact unawaitable
  | void | error | member | builtin => exact unawaitable

end

/-! ## Assignment -/

theorem assignVariable {name : Identifier} (target : guard.place name.span) {source : Value}
    (sourceGood : guard.good source) {span : Span} (own : guard.place span) :
    guard.Keeps (FlowScript.assignVariable name source span) fun _ => True := by
  have resolves : guard.Keeps (FlowScript.resolve name []) guard.good :=
    .resolve target nofun
  apply Keeps.bind resolves
  intro current currentGood
  apply Keeps.bind (.onStoreAt own (guard.cells.hands_assign currentGood sourceGood))
  intro value valueGood
  exact .onScopesAt target fun _ _ scopesGood => scopesGood.rebind valueGood

theorem assignEntry {parent : Value} (parentGood : guard.good parent) {key : Identifier}
    (target : guard.place key.span)
    {source : Value} (sourceGood : guard.good source) {span : Span} (own : guard.place span) :
    guard.Keeps (FlowScript.assignEntry parent key source span) fun _ => True := by
  apply Keeps.bind .getStore
  intro store storeGood
  split
  · next current found =>
      obtain ⟨entries, atParent, atKey⟩ := Option.bind_eq_some_iff.mp found
      have currentGood := guard.dictionary storeGood parentGood atParent current
        (Dictionary.get?_mem_values atKey)
      apply Keeps.bind
        (.onStoreAt own (guard.cells.hands_assign currentGood sourceGood))
      intro value valueGood
      apply Keeps.onStore
      apply Keeping.modify
      intro later laterGood
      split
      · next entries found =>
          have changed : ∀ part ∈ (Cell.dictionary (entries.insert key.name value)).values,
              guard.good part :=
            Dictionary.insert_all (guard.dictionary laterGood parentGood found) valueGood
          exact guard.write laterGood parentGood changed
      · exact laterGood
  · exact .fail target

theorem assignTarget {target : Path} (spans : guard.Places target.spans) {source : Value}
    (sourceGood : guard.good source) {span : Span} (own : guard.place span) :
    guard.Keeps (FlowScript.assignTarget target source span) fun _ => True := by
  unfold FlowScript.assignTarget
  split
  · next name parts => exact .assignVariable (Places.splitLast spans parts).2 sourceGood own
  · next head tail key parts =>
      obtain ⟨before, last⟩ := Places.splitLast spans parts
      rw [List.map_cons, places_cons] at before
      apply Keeps.bind (.resolve before.1 before.2)
      exact fun parent parentGood => .assignEntry parentGood last sourceGood own

end Keeps

/-! ## Expressions and statements -/

section

variable {depth : Nat} (evaluates : ∀ context, guard.Evaluates (evaluate depth context))
  (executes : ∀ context, guard.Executes (execute depth context))

include evaluates executes

theorem evaluates_step (context : Context) :
    guard.Evaluates (evaluate (depth + 1) context) := by
  intro expr spans
  cases expr with
  | literal value span => exact .onStore (guard.cells.hands_newScalar _)
  | path name =>
      rw [Expr.spans] at spans
      exact .resolvePath spans
  | call callee arguments argumentsSpan span =>
      simp only [Expr.spans, places_cons, places_append] at spans
      have none : ∀ argument ∈ (CallArguments.empty argumentsSpan).items,
          guard.Gives argument := by
        simp [CallArguments.empty]
      apply Keeps.bind (.resolvePath spans.2.1)
      intro function functionGood
      apply Keeps.bind (.evaluateArguments (evaluates context) none spans.2.2)
      intro values valuesGood
      exact .callValue functionGood spans.2.1 valuesGood spans.1
  | array elements span =>
      simp only [Expr.spans, places_cons] at spans
      apply Keeps.bind (.evaluateElements (evaluates context) spans.2)
      intro items itemsGood
      exact .onStore (guard.cells.hands_allocate .array itemsGood)
  | dictionary entries span =>
      simp only [Expr.spans, places_cons] at spans
      have none : ∀ value ∈ (Dictionary.empty : Dictionary Value).values, guard.good value := by
        simp [Dictionary.values, Dictionary.empty]
      apply Keeps.bind (.evaluateEntries (evaluates context) none spans.2)
      intro dictionary dictionaryGood
      exact .onStore (guard.cells.hands_allocate .dictionary dictionaryGood)
  | unary op operand span =>
      simp only [Expr.spans, places_cons] at spans
      apply Keeps.bind (evaluates context operand spans.2)
      exact fun value _ => .onStoreAt spans.1 (guard.cells.hands_unary op value)
  | chain first operations span =>
      simp only [Expr.spans, places_cons, places_append] at spans
      apply Keeps.bind (evaluates context first spans.2.1)
      intro left leftGood
      exact .applyOperations (evaluates context) context.program leftGood spans.2.2
  | await operand duration span =>
      simp only [Expr.spans, places_cons, places_append] at spans
      apply Keeps.bind (evaluates context operand spans.2.1)
      intro awaited awaitedGood
      apply Keeps.bind (evaluates context duration spans.2.2)
      intro limit _
      apply Keeps.bind (.expectDuration limit (spans.2.2 duration.span_mem))
      intro timeout _
      exact .awaitValue executes context awaitedGood spans.2.1 timeout spans.1
  | attempt operand span =>
      simp only [Expr.spans, places_cons] at spans
      apply Keeps.bind (evaluates context operand spans.2)
      intro value valueGood
      split
      · apply Keeps.bind (.report _ _ _)
        intro _ _
        apply Keeps.bind (.setReturn valueGood)
        exact fun _ _ => .pure valueGood
      · exact .pure valueGood

end

/-! ### Statements -/

namespace Keeps

variable {depth : Nat}

theorem announce (context : Context) (statement : Statement) :
    guard.Keeps (FlowScript.announce context statement) fun _ => True := .report _ _ _

theorem declareVariable (context : Context) {name : Identifier} (target : guard.place name.span)
    (kind : Kind) {span : Span} (own : guard.place span) {initializer : Value}
    (initializerGood : guard.good initializer) :
    guard.Keeps (FlowScript.declareVariable context name kind span initializer) fun _ => True := by
  have clock : guard.Keeps (currentInstant context) fun _ => True :=
    fun _ start => ⟨start, trivial⟩
  apply Keeps.bind clock
  intro now _
  apply Keeps.bind (.onStoreAt own (guard.cells.hands_construct now kind initializerGood))
  exact fun value valueGood => .declare target valueGood

/-- What a statement does with its value. -/
theorem finish (context : Context) {statement : Statement} (spans : guard.Places statement.spans)
    {value : Value} (valueGood : guard.good value) :
    guard.Keeps (statement.finish context value) fun _ => True := by
  cases statement with
  | assignment target source span =>
      simp only [Statement.spans, places_cons, places_append] at spans
      exact .assignTarget spans.2.1 valueGood spans.1
  | delay duration span =>
      simp only [Statement.spans, places_cons] at spans
      apply Keeps.bind (.expectDuration value (spans.2 duration.span_mem))
      intro time _
      apply Keeps.bind (.report _ _ _)
      exact fun _ _ => .wait _ _
  | returning result span => exact .setReturn valueGood
  | raising raised span =>
      simp only [Statement.spans, places_cons] at spans
      apply Keeps.bind .getStore
      intro store _
      split
      · exact .setReturn valueGood
      · apply Keeps.bind (.onStore (guard.cells.hands_newError _ _))
        exact fun error errorGood => .setReturn errorGood
      · exact .fail (spans.2 raised.span_mem)
  | importing | declaration | breaking | expression | branch | loop | workflow =>
      exact .pure trivial

section

variable (executes : ∀ context, guard.Executes (execute depth context))

include executes

theorem runBranch (context : Context) {block : Block} (spans : guard.Places block.spans) :
    guard.Keeps (FlowScript.runBranch depth context block) fun _ => True := by
  apply Keeps.bind (.runBlock (executes context) .block spans)
  exact fun _ _ => .pure trivial

theorem runOtherwise (context : Context) {otherwise : Option Block}
    (spans : ∀ block, otherwise = some block → guard.Places block.spans) (chosen : Bool) :
    guard.Keeps (FlowScript.runOtherwise depth context otherwise chosen) fun _ => True := by
  unfold FlowScript.runOtherwise
  split
  · next block => exact .runBranch executes context (spans block rfl)
  · exact .pure trivial

theorem runRounds (context : Context) {body : Block} (spans : guard.Places body.spans)
    (rounds : Nat) :
    guard.Keeps (FlowScript.runRounds depth context body rounds) fun _ => True :=
  .repeatUntilSignal (.runBlock (executes context) .loop spans) rounds

end

theorem endLoop (context : Context) (signalled : Bool) :
    guard.Keeps (FlowScript.endLoop context signalled) fun _ => True := by
  unfold FlowScript.endLoop
  split
  · exact .pure trivial
  · exact .report _ _ _

section

variable (evaluates : ∀ context, guard.Evaluates (evaluate depth context))

include evaluates

theorem testCondition (context : Context) {expr : Expr} (spans : guard.Places expr.spans) :
    guard.Keeps (FlowScript.testCondition depth context expr) fun _ => True := by
  apply Keeps.bind (evaluates context expr spans)
  exact fun value valueGood => .onStoreAt (spans expr.span_mem) (guard.cells.hands_truth valueGood)

theorem runBranches (executes : ∀ context, guard.Executes (execute depth context))
    (context : Context) {branches : List Conditional}
    (spans : guard.Places (Conditional.allSpans branches)) :
    guard.Keeps (FlowScript.runBranches depth context branches) fun _ => True :=
  .runFirstBranch (fun _ inside => .testCondition evaluates context inside)
    (fun _ inside => .runBranch executes context inside) spans

theorem executeValue (context : Context) {statement : Statement} {value : Expr}
    (owned : statement.value? = some value) (spans : guard.Places statement.spans) :
    guard.Keeps (execute (depth + 1) context statement) fun _ => True := by
  have inside : guard.Places value.spans := by
    cases statement <;> cases owned <;>
      simp only [Statement.spans, places_cons, places_append] at spans <;> simp [spans]
  rw [execute_value depth context owned]
  apply Keeps.bind (.announce context statement)
  intro _ _
  apply Keeps.bind (evaluates context value inside)
  exact fun result resultGood => .finish context spans resultGood

end

end Keeps

section

variable {depth : Nat} (evaluates : ∀ context, guard.Evaluates (evaluate depth context))
  (executes : ∀ context, guard.Executes (execute depth context))

include evaluates executes

theorem executes_step (context : Context) :
    guard.Executes (execute (depth + 1) context) := by
  intro statement spans
  cases statement with
  | assignment | delay | returning | raising | expression =>
      exact .executeValue evaluates context rfl spans
  | importing path span =>
      apply Keeps.bind (.announce context _)
      exact fun _ _ => .report _ _ _
  | declaration name typeName value span =>
      simp only [Statement.spans, places_cons] at spans
      obtain ⟨own, target, named, inside⟩ := spans
      apply Keeps.bind (.announce context _)
      intro _ _
      apply Keeps.bind (.resolveKind named)
      intro kind _
      cases value with
      | some value =>
          apply Keeps.bind (evaluates context value (by simpa using inside))
          exact fun initializer initializerGood =>
            .declareVariable context target kind own initializerGood
      | none =>
          apply Keeps.bind (.pure guard.void)
          exact fun initializer initializerGood =>
            .declareVariable context target kind own initializerGood
  | breaking span =>
      apply Keeps.bind (.announce context _)
      exact fun _ _ => .narrowing fun stack => stack.narrows_setFlow .breaking
  | branch first others otherwise span =>
      simp only [Statement.spans, places_cons, places_append] at spans
      obtain ⟨own, inFirst, inOthers, inOtherwise⟩ := spans
      have branches : guard.Places (Conditional.allSpans (first :: others)) := by
        simp only [Conditional.allSpans, places_append]
        exact ⟨inFirst, inOthers⟩
      rw [execute_branch]
      apply Keeps.bind (.announce context _)
      intro _ _
      apply Keeps.bind (.runBranches evaluates executes context branches)
      intro chosen _
      apply Keeps.runOtherwise executes context _ chosen
      intro block same
      subst same
      exact inOtherwise
  | loop body span =>
      simp only [Statement.spans, places_cons] at spans
      rw [execute_loop]
      apply Keeps.bind (.announce context _)
      intro _ _
      apply Keeps.bind (.runRounds executes context spans.2 _)
      exact fun signalled _ => .endLoop context signalled
  | workflow definition =>
      rw [Statement.spans] at spans
      have own : guard.place definition.name.span := by
        obtain ⟨name, signature, body, span⟩ := definition
        simp only [Workflow.spans, places_cons] at spans
        exact spans.2.1
      apply Keeps.bind (.announce context _)
      exact fun _ _ => .declare own (guard.workflow_iff.mpr spans)

end

theorem evaluation (guard : Guard) (depth : Nat) :
    (∀ context, guard.Evaluates (evaluate depth context)) ∧
      ∀ context, guard.Executes (execute depth context) := by
  induction depth with
  | zero =>
      constructor
      · exact fun _ _ _ => Keeps.throw trivial
      · exact fun _ _ _ => Keeps.throw trivial
  | succ depth ih =>
      obtain ⟨evaluates, executes⟩ := ih
      exact ⟨evaluates_step evaluates executes, executes_step evaluates executes⟩

end Guard

end FlowScript