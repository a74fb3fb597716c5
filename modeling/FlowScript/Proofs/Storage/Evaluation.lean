import FlowScript.Proofs.Run.Walk
import FlowScript.Proofs.Storage.Call
import FlowScript.Proofs.Syntax.Introduction

/-!
# Evaluation keeps machines sound

Whatever is evaluated, and however the evaluation ends, a sound machine stays
sound. The recursion of the evaluator is followed once for expressions and
statements together; all functions it calls are dealt with before.
-/

set_option autoImplicit false

namespace FlowScript

open RunM

variable {allowed : Workflow → Prop} {machine : Machine}

/-- Evaluation keeps every sound machine sound and yields values in bounds. -/
def EvaluatesSoundly (allowed : Workflow → Prop) (evaluate : Expr → RunM Value) : Prop :=
  ∀ (expr : Expr) {machine : Machine}, machine.Sound allowed →
    Preserves allowed machine (evaluate expr) machine (InBounds allowed)

/-- Execution keeps every sound machine sound, given that the statement introduces
allowed workflows only. -/
def ExecutesSoundly (allowed : Workflow → Prop) (execute : Statement → RunM Unit) : Prop :=
  ∀ (statement : Statement) {machine : Machine}, statement.Admitted allowed →
    machine.Sound allowed → Preserves allowed machine (execute statement) machine
      fun _ _ => True

/-! ## Walking through parts -/

section

variable {evaluate : Expr → RunM Value} (evaluates : EvaluatesSoundly allowed evaluate)

include evaluates

theorem evaluateArguments_preserves (sound : machine.Sound allowed) {done : CallArguments}
    (doneWithin : done.Within allowed machine.size) (arguments : List Argument) :
    Preserves allowed machine (evaluateArguments evaluate done arguments) machine
      fun result final => result.Within allowed final.size := by
  induction arguments generalizing machine done with
  | nil => exact .pure sound (.refl machine) doneWithin
  | cons argument rest ih =>
      refine .bind (.refl machine) (evaluates argument.value sound) ?_
      intro value after afterSound kept _ within
      refine (ih afterSound fun other member => ?_).rebase kept
      rcases List.mem_append.mp member with old | new
      · exact (doneWithin other old).mono kept.size_le
      · cases List.mem_singleton.mp new
        exact within

theorem evaluateCopy_preserves (sound : machine.Sound allowed) (expr : Expr) :
    Preserves allowed machine (evaluateCopy evaluate expr) machine
      fun copy final => InHand allowed machine.size [copy] final := by
  refine .bind (.refl machine) (evaluates expr sound) ?_
  intro value after afterSound kept _ within
  refine (Preserves.onStore afterSound kept
    ((Value.detach_copied afterSound.store within).imp fun _ _ copied => copied.gives)).imp ?_
  rintro copy final - ⟨scopes, gives⟩
  exact ⟨List.forall_mem_singleton.mpr gives.within,
    afterSound.loose_store scopes kept.size_le gives.loose⟩

theorem evaluateElements_preserves (sound : machine.Sound allowed) (elements : List Expr) :
    Preserves allowed machine (evaluateElements evaluate elements) machine
      fun values final => InHand allowed machine.size values final := by
  induction elements generalizing machine with
  | nil => exact .pure sound (.refl machine) .none
  | cons element rest ih =>
      rw [evaluateElements_cons]
      refine .bindBase (evaluateCopy_preserves evaluates sound element) ?_
      intro copy after afterSound kept inHand
      refine .bind kept (ih afterSound) ?_
      intro copies final finalSound here finalKept others
      exact .pure finalSound finalKept (inHand.append here others kept.size_le)

theorem evaluateEntries_preserves {base : Machine} (sound : machine.Sound allowed)
    (kept : base.Keeps machine) {done : Dictionary Value}
    (inHand : InHand allowed base.size done.values machine) (entries : List Entry) :
    Preserves allowed base (evaluateEntries evaluate done entries) machine
      fun result final => InHand allowed base.size result.values final := by
  induction entries generalizing machine done with
  | nil => exact .pure sound kept inHand
  | cons entry rest ih =>
      rw [evaluateEntries_cons]
      refine .bind kept (evaluateCopy_preserves evaluates sound entry.value) ?_
      intro copy after afterSound here afterKept new
      refine ih afterSound afterKept (.of_subperm ?_ (inHand.append here new kept.size_le))
      exact (Dictionary.insert_values_subperm done entry.key.name copy).trans
        (List.perm_append_singleton copy done.values).symm.subperm

omit evaluates in
theorem typeTest_preserves (sound : machine.Sound allowed) (program : Program) (value : Value)
    (operand : Expr) :
    Preserves allowed machine (typeTest program value operand) machine (InBounds allowed) := by
  unfold typeTest
  dsimp only
  split
  · refine (Preserves.onStore sound (.refl machine)
      ((newScalar_copied sound.store _).imp fun _ _ copied => copied.gives)).imp ?_
    rintro result final - ⟨-, gives⟩
    exact gives.within
  · exact .throw sound (.refl machine)

theorem applyOperation_preserves (sound : machine.Sound allowed) (program : Program)
    (left : Value) (operation : Operation) :
    Preserves allowed machine (applyOperation evaluate program left operation) machine
      (InBounds allowed) := by
  have operates : ∀ (op : BinaryOperator) (order : Value → Value × Value),
      Preserves allowed machine (do
        let right ← evaluate operation.operand
        onStoreAt operation.span (Value.binary op (order right).1 (order right).2)) machine
        (InBounds allowed) := by
    intro op order
    refine .bind (.refl machine) (evaluates operation.operand sound) ?_
    intro right after afterSound kept _ _
    refine (Preserves.onStoreAt afterSound kept
      (Value.binary_yields afterSound.store op _ _)).imp ?_
    rintro result final - ⟨-, gives⟩
    exact gives.within
  unfold applyOperation
  cases operation.op with
  | isA => exact typeTest_preserves sound program left operation.operand
  | isIn => exact operates .isIn fun right => (right, left)
  | _ => exact operates _ fun right => (left, right)

theorem applyOperations_preserves (sound : machine.Sound allowed) (program : Program)
    {left : Value} (within : left.Within allowed machine.size) (operations : List Operation) :
    Preserves allowed machine (applyOperations evaluate program left operations) machine
      (InBounds allowed) := by
  induction operations generalizing machine left with
  | nil => exact .pure sound (.refl machine) within
  | cons operation rest ih =>
      rw [applyOperations_cons]
      refine .bind (.refl machine) (applyOperation_preserves evaluates sound program left _) ?_
      intro result after afterSound kept _ resultWithin
      exact (ih afterSound resultWithin).rebase kept

end

/-! ## Scopes around statements -/

theorem restoringScopes_preserves {α : Type} {action : RunM α} {result : α → Machine → Prop}
    (preserves : Preserves allowed machine action machine result) :
    Preserves allowed machine (restoringScopes action) machine result := by
  unfold restoringScopes
  refine .getDepth (.tryCatch (.refl machine) preserves ?_)
  intro interruption after sound kept _
  cases interruption with
  | failed fault =>
      refine .bindBase (.modifyScopes sound kept (ScopeStack.narrows_truncate _ _)) ?_
      intro _ final finalSound finalKept _
      exact .throw finalSound finalKept
  | expired | exhausted => exact .throw sound kept

theorem repeatUntilSignal_preserves {body : RunM FlowSignal} (sound : machine.Sound allowed)
    (bodyPreserves : ∀ {machine : Machine}, machine.Sound allowed →
      Preserves allowed machine body machine fun _ _ => True) (rounds : Nat) :
    Preserves allowed machine (repeatUntilSignal body rounds) machine fun _ _ => True := by
  induction rounds generalizing machine with
  | zero => exact .pure sound (.refl machine) trivial
  | succ rounds ih =>
      refine .bind (.refl machine) (bodyPreserves sound) ?_
      intro signal after afterSound kept _ _
      split
      · exact (ih afterSound).rebase kept
      · exact .pure afterSound kept trivial

theorem runFirstBranch_preserves {condition : Expr → RunM Bool} {run : Block → RunM Unit}
    (sound : machine.Sound allowed)
    (conditionPreserves : ∀ (expr : Expr) {machine : Machine}, machine.Sound allowed →
      Preserves allowed machine (condition expr) machine fun _ _ => True)
    {branches : List Conditional}
    (runPreserves : ∀ branch ∈ branches, ∀ {machine : Machine}, machine.Sound allowed →
      Preserves allowed machine (run branch.body) machine fun _ _ => True) :
    Preserves allowed machine (runFirstBranch condition run branches) machine
      fun _ _ => True := by
  induction branches generalizing machine with
  | nil => exact .pure sound (.refl machine) trivial
  | cons branch rest ih =>
      refine .bind (.refl machine) (conditionPreserves branch.condition sound) ?_
      intro holds after afterSound kept _ _
      cases holds with
      | true =>
          refine .bind kept (runPreserves branch List.mem_cons_self afterSound) ?_
          intro _ final finalSound _ finalKept _
          exact .pure finalSound finalKept trivial
      | false =>
          refine (ih afterSound fun other member => ?_).rebase kept
          exact runPreserves other (List.mem_cons_of_mem _ member)

section

variable {execute : Statement → RunM Unit} (executes : ExecutesSoundly allowed execute)

include executes

theorem executeAll_preserves (sound : machine.Sound allowed) {statements : List Statement}
    (admitted : StatementsAdmitted allowed statements) :
    Preserves allowed machine (executeAll execute statements) machine fun _ _ => True := by
  induction statements generalizing machine with
  | nil => exact .pure sound (.refl machine) trivial
  | cons statement rest ih =>
      obtain ⟨first, others⟩ := statementsAdmitted_cons.mp admitted
      refine .bind (.refl machine) (executes statement first sound) ?_
      intro _ after afterSound kept _ _
      refine .getScopes ?_
      split
      · exact (ih afterSound others).rebase kept
      · exact .pure afterSound kept trivial

theorem runBlock_preserves (sound : machine.Sound allowed) (kind : ScopeKind) {block : Block}
    (admitted : StatementsAdmitted allowed block.statements) :
    Preserves allowed machine (runBlock execute kind block) machine fun _ _ => True := by
  have entered : Preserves allowed machine (do
      modifyScopes (·.push kind)
      executeAll execute block.statements) machine fun _ _ => True := by
    refine .bindBase (.modifyScopes sound (.refl machine) (ScopeStack.narrows_push _ kind)) ?_
    intro _ after afterSound kept _
    exact (executeAll_preserves executes afterSound admitted).rebase kept
  unfold runBlock
  refine .bindBase (restoringScopes_preserves entered) ?_
  intro _ after afterSound kept _
  refine .getScopes ?_
  refine .bindBase (.modifyScopes afterSound kept (ScopeStack.narrows_pop _)) ?_
  intro _ final finalSound finalKept _
  exact .pure finalSound finalKept trivial

theorem invoke_preserves (sound : machine.Sound allowed) {definition : Workflow}
    (admitted : StatementsAdmitted allowed definition.body.statements)
    {arguments : CallArguments} (within : arguments.Within allowed machine.size)
    (location : Span) :
    Preserves allowed machine (invoke execute definition arguments location) machine
      (InBounds allowed) := by
  unfold invoke
  refine .reportThen sound (.refl machine) ?_
  intro reported reportedSound reportedKept _
  refine .getDepth ?_
  have entered : Preserves allowed reported (do
      modifyScopes (·.push .function)
      bindParameters definition arguments location
      executeAll execute definition.body.statements
      let scopes ← getScopes
      checkResult definition scopes.returnValue? location) reported (InBounds allowed) := by
    refine .bindBase (.modifyScopes reportedSound (.refl reported)
      (ScopeStack.narrows_push _ .function)) ?_
    intro _ inside insideSound insideKept _
    have argumentsWithin := fun argument member =>
      (within argument member).mono (Nat.le_trans reportedKept.size_le insideKept.size_le)
    refine .bind insideKept
      (bindParameters_preserves insideSound definition argumentsWithin location) ?_
    intro _ bound boundSound _ boundKept _
    refine .bind boundKept (executeAll_preserves executes boundSound admitted) ?_
    intro _ ran ranSound _ ranKept _
    refine .getScopes ((checkResult_preserves ranSound definition ?_ location).rebase ranKept)
    intro value stored
    exact ranSound.results value (ScopeStack.returnValue?_mem stored)
  refine .bind reportedKept (restoringScopes_preserves entered) ?_
  intro result after afterSound _ afterKept resultWithin
  refine .bind afterKept
    (.modifyScopes afterSound (.refl after) (ScopeStack.narrows_truncate _ _)) ?_
  intro _ final finalSound here finalKept _
  exact .pure finalSound finalKept (resultWithin.mono here.size_le)

end

/-! ## Awaiting -/

theorem timeoutError_preserves (sound : machine.Sound allowed) (location : Span) :
    Preserves allowed machine (timeoutError location) machine (InBounds allowed) := by
  refine (Preserves.onStore sound (.refl machine)
    ((newError_copied sound.store _ _).imp fun _ _ copied => copied.gives)).imp ?_
  rintro value final - ⟨-, gives⟩
  exact gives.within

theorem withTimeout_preserves {α : Type} {context : Context} {timeout : Duration}
    {action : Context → RunM α} {result : α → Machine → Prop}
    (preserves : ∀ inner, Preserves allowed machine (action inner) machine result) :
    Preserves allowed machine (withTimeout context timeout action) machine
      fun answer final => ∀ value, answer = some value → result value final := by
  unfold withTimeout
  refine .get (.tryCatch (.refl machine) ?_ ?_)
  · rw [map_eq_pure_bind]
    refine .bindBase (preserves _) ?_
    intro value final sound kept holds
    refine .pure sound kept fun other same => ?_
    cases same
    exact holds
  · intro interruption after sound kept _
    split
    · exact .pure sound kept fun _ same => by cases same
    · exact .throw sound kept

section

variable {execute : Context → Statement → RunM Unit}
  (executes : ∀ context, ExecutesSoundly allowed (execute context))

include executes

theorem awaitInvocation_preserves (sound : machine.Sound allowed) (context : Context)
    {definition : Workflow} (admitted : StatementsAdmitted allowed definition.body.statements)
    {arguments : CallArguments} (within : arguments.Within allowed machine.size) (called : Span)
    (timeout : Duration) (location : Span) :
    Preserves allowed machine
      (awaitInvocation execute context definition arguments called timeout location) machine
      (InBounds allowed) := by
  unfold awaitInvocation
  refine .getDepth ?_
  refine .bind (.refl machine) (withTimeout_preserves fun inner =>
    invoke_preserves (executes inner) sound admitted within called) ?_
  intro answer after afterSound kept _ holds
  cases answer with
  | some result => exact .pure afterSound kept (holds result rfl)
  | none =>
      refine .bindBase (.modifyScopes afterSound kept (ScopeStack.narrows_truncate _ _)) ?_
      intro _ left leftSound leftKept _
      refine .reportThen leftSound leftKept ?_
      rintro final finalSound finalKept -
      exact (timeoutError_preserves finalSound location).rebase finalKept

omit executes in
theorem askService_preserves (sound : machine.Sound allowed) (service : Service)
    (delegate : Delegate) (payload : JsonObject) (context : Context) :
    Preserves allowed machine (askService service delegate payload context) machine
      fun _ _ => True := by
  refine .bindBase (.quiet sound (.refl machine) rfl rfl) ?_
  intro _ recorded recordedSound recordedKept _
  refine .get ?_
  refine .bindBase (.quiet recordedSound recordedKept rfl rfl) ?_
  intro _ announced announcedSound announcedKept _
  refine .bindBase (.wait announcedSound announcedKept) ?_
  intro _ answered answeredSound answeredKept _
  exact .pure answeredSound answeredKept trivial

omit executes in
theorem awaitHost_preserves (sound : machine.Sound allowed) (context : Context)
    (kind : HostKind) (request : Value) (timeout : Duration) (location : Span) :
    Preserves allowed machine (awaitHost context kind request timeout location) machine
      (InBounds allowed) := by
  unfold awaitHost
  dsimp only
  split
  · exact .throw sound (.refl machine)
  · next service delegate reply _ =>
      refine .getStore ?_
      refine .reportThen sound (.refl machine) ?_
      rintro sent sentSound sentKept -
      refine .bind sentKept (withTimeout_preserves
        (askService_preserves sentSound service delegate _)) ?_
      intro answer after afterSound _ kept _
      match answer with
      | none =>
          refine .reportThen afterSound kept ?_
          rintro final finalSound finalKept -
          exact (timeoutError_preserves finalSound location).rebase finalKept
      | some (.error reason) =>
          refine .reportThen afterSound kept ?_
          rintro final finalSound finalKept -
          refine (Preserves.onStore finalSound finalKept
            ((newError_copied finalSound.store _ _).imp fun _ _ copied => copied.gives)).imp ?_
          rintro value last - ⟨-, gives⟩
          exact gives.within
      | some (.ok members) =>
          have replies : After (do
              let entries ← Value.ofJsonObject members
              newDictionary (.host reply) entries) after.store fun value final =>
                after.store.Advances allowed final ∧ after.store.Gives allowed value final := by
            rw [after_bind]
            refine (Value.ofJsonObject_copied afterSound.store members).imp ?_
            intro entries middle copied
            have made : After (newDictionary (.host reply) entries) middle fun value final =>
                Copied allowed after.store final [value] := allocate_copied copied _
            exact made.imp fun _ _ new => new.gives
          refine (Preserves.onStore afterSound kept replies).imp ?_
          rintro value last - ⟨-, gives⟩
          exact gives.within

theorem awaitValue_preserves (closed : ClosedWorkflows allowed) (sound : machine.Sound allowed)
    (context : Context) {awaited : Value} (within : awaited.Within allowed machine.size)
    (operand : Expr) (timeout : Duration) (location : Span) :
    Preserves allowed machine (awaitValue execute context awaited operand timeout location)
      machine (InBounds allowed) := by
  cases within with
  | invocation known argumentsWithin =>
      exact awaitInvocation_preserves executes sound context (closed _ known) argumentsWithin
        _ timeout location
  | workflow known =>
      exact awaitInvocation_preserves executes sound context (closed _ known)
        (fun _ member => by cases member) _ timeout location
  | @stored kind address inBounds =>
      cases kind with
      | host kind =>
          unfold awaitValue
          dsimp only
          split
          · exact awaitHost_preserves sound context kind _ timeout location
          · exact .throw sound (.refl machine)
      | _ => exact .throw sound (.refl machine)
  | _ => exact .throw sound (.refl machine)

end

theorem expectDuration_preserves (sound : machine.Sound allowed) (value : Value)
    (location : Span) :
    Preserves allowed machine (expectDuration value location) machine fun _ _ => True := by
  unfold expectDuration
  refine .getStore ?_
  split
  · exact .pure sound (.refl machine) trivial
  · exact .throw sound (.refl machine)

/-! ## Assignment -/

theorem assignVariable_preserves (sound : machine.Sound allowed) (name : Identifier)
    {source : Value} (within : source.Within allowed machine.size) (span : Span) :
    Preserves allowed machine (assignVariable name source span) machine fun _ _ => True := by
  have looksUp : Preserves allowed machine (resolve name []) machine fun current final =>
      final = machine ∧ machine.scopes.lookup? name.name = some current := by
    unfold resolve
    refine .getScopes ?_
    split
    · next current found => exact .pure sound (.refl machine) ⟨rfl, found⟩
    · exact .throw sound (.refl machine)
  unfold assignVariable
  refine .bindBase looksUp ?_
  rintro current after - - ⟨rfl, found⟩
  have currentWithin := sound.bindings current (ScopeStack.lookup?_mem found)
  refine .bindBase (.onStoreAt sound (.refl after)
    (Value.assign_yields sound.store currentWithin within)) ?_
  rintro value stored storedSound kept ⟨scopes, assigned⟩
  refine .onScopesAt storedSound kept fun changed rebound => ?_
  exact storedSound.rebind kept (scopes ▸ found) assigned rebound

theorem Store.Sound.entry_apart {store : Store} (sound : store.Sound allowed) {address : Nat}
    {entries : Dictionary Value} (atAddress : store.cell? address = some (.dictionary entries))
    {key : String} {entry : Value} (found : entries.get? key = some entry) :
    entry.address? ≠ some address := by
  intro same
  obtain ⟨rank, ranked⟩ := sound.ranked
  exact Nat.lt_irrefl _ (ranked.lt_of_part atAddress (Dictionary.get?_mem_values found) same)

/-- An entry may keep its own value or take one without a cell. -/
theorem Store.Sound.insert_advances {store : Store} (sound : store.Sound allowed)
    {address : Nat} {entries : Dictionary Value}
    (atAddress : store.cell? address = some (.dictionary entries)) (inBounds : address < store.size)
    {key : String} {value : Value} (within : value.Within allowed store.size)
    (origin : entries.get? key = some value ∨ value.address? = none) :
    store.Advances allowed (store.write address (.dictionary (entries.insert key value))) := by
  rcases origin with kept | bare
  · rw [Dictionary.insert_of_get?_eq_some kept]
    exact Value.write_beside sound (Copied.bare sound .void rfl) atAddress inBounds
      (List.sublist_cons_self _ _).subperm
  · exact Value.write_beside sound (Copied.bare sound within bare) atAddress inBounds
      (Dictionary.insert_values_subperm entries key value)

theorem assignEntry_preserves (sound : machine.Sound allowed) {parent : Value}
    (parentWithin : parent.Within allowed machine.size) (key : Identifier) {source : Value}
    (within : source.Within allowed machine.size) (span : Span) :
    Preserves allowed machine (assignEntry parent key source span) machine
      fun _ _ => True := by
  unfold assignEntry
  refine .getStore ?_
  split
  · next kind address current found =>
      have inBounds := parentWithin.address_lt rfl
      obtain ⟨entries, atParent, atKey⟩ := Option.bind_eq_some_iff.mp found
      have atAddress := Store.dictionary?_eq_some atParent
      have currentWithin := sound.store.entry_within found
      refine .bind (.refl machine) (.onStoreAt sound (.refl machine)
        (Value.assign_yields sound.store currentWithin within)) ?_
      rintro value after afterSound kept - ⟨-, assigned⟩
      -- The dictionary itself was not written, so it still has the entry.
      have stillThere : after.store.cell? address = some (.dictionary entries) := by
        rw [assigned.spares address inBounds (sound.store.entry_apart atAddress atKey), atAddress]
      have sameEntries : after.store.dictionary? (.stored kind address) = some entries := by
        simp [Store.dictionary?, stillThere]
      have origin : entries.get? key.name = some value ∨ value.address? = none := by
        rcases assigned.origin with rfl | bare
        · exact .inl atKey
        · exact .inr bare
      have advances := afterSound.store.insert_advances stillThere
        (Nat.lt_of_lt_of_le inBounds kept.size_le) assigned.within origin
      refine (Preserves.onStore afterSound kept
        (?_ : After _ _ fun _ final => after.store.Advances allowed final ∧ True)).imp
          fun _ _ _ _ => trivial
      simp only [after_modify, sameEntries, and_true]
      exact advances
  · exact .throw sound (.refl machine)

theorem assignTarget_preserves (sound : machine.Sound allowed) (target : Path) {source : Value}
    (within : source.Within allowed machine.size) (span : Span) :
    Preserves allowed machine (assignTarget target source span) machine fun _ _ => True := by
  unfold assignTarget
  split
  · exact assignVariable_preserves sound _ within span
  · refine .bind (.refl machine) (resolve_preserves sound _ _) ?_
    intro parent after afterSound kept _ parentWithin
    exact (assignEntry_preserves afterSound parentWithin _ (within.mono kept.size_le)
      span).rebase kept

/-! ## Branches and loops -/

section

variable {depth : Nat} {context : Context}

theorem testCondition_preserves (evaluates : EvaluatesSoundly allowed (evaluate depth context))
    (sound : machine.Sound allowed) (expr : Expr) :
    Preserves allowed machine (testCondition depth context expr) machine fun _ _ => True := by
  refine .bind (.refl machine) (evaluates expr sound) ?_
  intro value after afterSound kept _ _
  exact (Preserves.onStoreAt afterSound kept
    (Value.truth_yields afterSound.store value)).imp fun _ _ _ _ => trivial

variable (executes : ExecutesSoundly allowed (execute depth context))

include executes

theorem runBranch_preserves (sound : machine.Sound allowed) {block : Block}
    (admitted : StatementsAdmitted allowed block.statements) :
    Preserves allowed machine (runBranch depth context block) machine fun _ _ => True := by
  refine .bindBase (runBlock_preserves executes sound .block admitted) ?_
  intro _ final finalSound finalKept _
  exact .pure finalSound finalKept trivial

theorem runBranches_preserves (evaluates : EvaluatesSoundly allowed (evaluate depth context))
    (sound : machine.Sound allowed) {branches : List Conditional}
    (admitted : ∀ branch ∈ branches, StatementsAdmitted allowed branch.body.statements) :
    Preserves allowed machine (runBranches depth context branches) machine fun _ _ => True :=
  runFirstBranch_preserves sound (fun expr _ sound => testCondition_preserves evaluates sound expr)
    fun branch member _ sound => runBranch_preserves executes sound (admitted branch member)

theorem runRounds_preserves (sound : machine.Sound allowed) {body : Block}
    (admitted : StatementsAdmitted allowed body.statements) (rounds : Nat) :
    Preserves allowed machine (runRounds depth context body rounds) machine fun _ _ => True :=
  repeatUntilSignal_preserves sound
    (fun sound => runBlock_preserves executes sound .loop admitted) rounds

end

/-! ## Expressions and statements -/

theorem evaluate_preserves_step {depth : Nat}
    (evaluates : ∀ context, EvaluatesSoundly allowed (evaluate depth context))
    (executes : ∀ context, ExecutesSoundly allowed (execute depth context))
    (closed : ClosedWorkflows allowed) (context : Context) :
    EvaluatesSoundly allowed (evaluate (depth + 1) context) := by
  intro expr machine sound
  unfold evaluate
  dsimp only
  cases expr with
  | literal value span =>
      refine (Preserves.onStore sound (.refl machine)
        ((newScalar_copied sound.store _).imp fun _ _ copied => copied.gives)).imp ?_
      rintro result final - ⟨-, gives⟩
      exact gives.within
  | path name => exact resolve_preserves sound _ _
  | call callee arguments argumentsSpan span =>
      refine .bind (.refl machine) (resolve_preserves sound _ _) ?_
      intro function after afterSound kept _ functionWithin
      have noneWithin : (CallArguments.empty argumentsSpan).Within allowed after.size :=
        fun _ member => by cases member
      refine .bind kept (evaluateArguments_preserves (evaluates context) afterSound noneWithin _) ?_
      intro values final finalSound here finalKept valuesWithin
      exact (callValue_preserves finalSound (functionWithin.mono here.size_le) callee
        valuesWithin span).rebase finalKept
  | array elements span =>
      refine .bindBase (evaluateElements_preserves (evaluates context) sound elements) ?_
      intro items after afterSound kept inHand
      exact .allocate afterSound kept inHand
  | dictionary entries span =>
      refine .bindBase (evaluateEntries_preserves (evaluates context) sound (.refl machine)
        .none entries) ?_
      intro items after afterSound kept inHand
      exact .allocate afterSound kept inHand
  | unary op operand span =>
      refine .bind (.refl machine) (evaluates context operand sound) ?_
      intro value after afterSound kept _ within
      refine (Preserves.onStoreAt afterSound kept
        (Value.unary_yields afterSound.store op value)).imp ?_
      rintro result final - ⟨-, gives⟩
      exact gives.within
  | chain first operations span =>
      refine .bind (.refl machine) (evaluates context first sound) ?_
      intro left after afterSound kept _ within
      exact (applyOperations_preserves (evaluates context) afterSound context.program within
        operations).rebase kept
  | await operand duration span =>
      refine .bind (.refl machine) (evaluates context operand sound) ?_
      intro awaited after afterSound kept _ awaitedWithin
      refine .bind kept (evaluates context duration afterSound) ?_
      intro limit limited limitedSound limitedHere limitedKept _
      refine .bind limitedKept (expectDuration_preserves limitedSound limit _) ?_
      intro timeout final finalSound finalHere finalKept _
      exact (awaitValue_preserves executes closed finalSound context
        ((awaitedWithin.mono limitedHere.size_le).mono finalHere.size_le) operand timeout
        span).rebase finalKept
  | attempt operand span =>
      refine .bind (.refl machine) (evaluates context operand sound) ?_
      intro value after afterSound kept _ within
      split
      · refine .bind kept (.report afterSound (.refl after)) ?_
        intro _ reported reportedSound here reportedKept _
        have reportedWithin := within.mono here.size_le
        refine .bind reportedKept (.setReturn reportedSound (.refl reported) reportedWithin) ?_
        intro _ final finalSound finalHere finalKept _
        exact .pure finalSound finalKept (reportedWithin.mono finalHere.size_le)
      · exact .pure afterSound kept within

theorem declareVariable_preserves (sound : machine.Sound allowed) (context : Context)
    (name : Identifier) (kind : Kind) (span : Span) {initializer : Value}
    (within : initializer.Within allowed machine.size) :
    Preserves allowed machine (declareVariable context name kind span initializer) machine
      fun _ _ => True := by
  unfold declareVariable currentInstant
  simp only [bind_assoc, pure_bind]
  refine .get ?_
  refine .bindBase (.onStoreAt sound (.refl machine)
    (Value.construct_yields sound.store _ kind within)) ?_
  rintro made final finalSound kept ⟨scopes, gives⟩
  exact .declare finalSound kept gives.within
    (sound.loose_store scopes (Nat.le_refl _) gives.loose)

theorem finish_preserves (sound : machine.Sound allowed) (context : Context)
    (statement : Statement) {value : Value} (within : value.Within allowed machine.size) :
    Preserves allowed machine (statement.finish context value) machine fun _ _ => True := by
  cases statement with
  | assignment target source span => exact assignTarget_preserves sound target within span
  | delay duration span =>
      refine .bindBase (expectDuration_preserves sound value _) ?_
      intro time ready readySound kept _
      refine .reportThen readySound kept ?_
      rintro final finalSound finalKept -
      exact .wait finalSound finalKept
  | returning result span => exact .setReturn sound (.refl machine) within
  | raising raised span =>
      refine .getStore ?_
      split
      · exact .setReturn sound (.refl machine) within
      · refine .bindBase (.onStore sound (.refl machine)
          ((newError_copied sound.store _ _).imp fun _ _ copied => copied.gives)) ?_
        rintro error final finalSound kept ⟨-, gives⟩
        exact .setReturn finalSound kept gives.within
      · exact .throw sound (.refl machine)
  | importing | declaration | breaking | expression | branch | loop | workflow =>
      exact .pure sound (.refl machine) trivial

theorem execute_preserves_step {depth : Nat}
    (evaluates : ∀ context, EvaluatesSoundly allowed (evaluate depth context))
    (executes : ∀ context, ExecutesSoundly allowed (execute depth context))
    (context : Context) : ExecutesSoundly allowed (execute (depth + 1) context) := by
  intro statement machine admitted sound
  unfold execute
  refine .reportThen sound (.refl machine) ?_
  rintro start startSound startKept -
  refine Preserves.rebase ?_ startKept
  have values : ∀ (statement : Statement) (expr : Expr), Preserves allowed start
      (evaluate depth context expr >>= statement.finish context) start fun _ _ => True := by
    intro statement expr
    refine .bind (.refl start) (evaluates context expr startSound) ?_
    intro value after afterSound kept _ within
    exact (finish_preserves afterSound context statement within).rebase kept
  cases statement with
  | importing path span =>
      exact (Preserves.report startSound (.refl start)).imp fun _ _ _ _ => trivial
  | declaration name typeName value span =>
      refine .bind (.refl start) (resolveKind_preserves startSound typeName) ?_
      rintro kind after - - - rfl
      cases value with
      | some value =>
          refine .bind (.refl after) (evaluates context value startSound) ?_
          intro initializer ready readySound kept _ within
          exact (declareVariable_preserves readySound context name kind span within).rebase kept
      | none =>
          simp only [pure_bind]
          exact declareVariable_preserves startSound context name kind span .void
  | assignment target value span => exact values (.assignment target value span) value
  | delay duration span => exact values (.delay duration span) duration
  | returning value span => exact values (.returning value span) value
  | raising value span => exact values (.raising value span) value
  | breaking span =>
      exact .modifyScopes startSound (.refl start) (ScopeStack.narrows_setFlow _ .breaking)
  | expression value span => exact values (.expression value span) value
  | branch first others otherwise span =>
      refine .bindBase (runBranches_preserves (executes context) (evaluates context) startSound
        fun branch member => admitted.branch_body member) ?_
      intro chosen after afterSound kept _
      cases chosen with
      | true => exact .pure afterSound kept trivial
      | false =>
          cases otherwise with
          | none => exact .pure afterSound kept trivial
          | some block =>
              exact (runBranch_preserves (executes context) afterSound
                admitted.otherwise_body).rebase kept
  | loop body span =>
      refine .bindBase (runRounds_preserves (executes context) startSound admitted.loop_body _) ?_
      intro signalled after afterSound kept _
      cases signalled with
      | true => exact .pure afterSound kept trivial
      | false => exact (Preserves.report afterSound kept).imp fun _ _ _ _ => trivial
  | workflow definition =>
      exact .declare startSound (.refl start) (.workflow (admitted definition .here))
        (.of_address?_eq_none rfl)

theorem evaluation_preserves (closed : ClosedWorkflows allowed) (depth : Nat) :
    (∀ context, EvaluatesSoundly allowed (evaluate depth context)) ∧
      ∀ context, ExecutesSoundly allowed (execute depth context) := by
  induction depth with
  | zero =>
      refine ⟨fun context expr machine sound => ?_, fun context statement machine _ sound => ?_⟩
      · unfold evaluate
        exact .throw sound (.refl machine)
      · unfold execute
        exact .throw sound (.refl machine)
  | succ depth ih =>
      obtain ⟨evaluates, executes⟩ := ih
      exact ⟨evaluate_preserves_step evaluates executes closed,
        execute_preserves_step evaluates executes⟩

end FlowScript
