import FlowScript.Proofs.Run.Parts

/-!
# The order of the parts

The parts of a site come one after another. When a part has ended, the work behind it
goes on until the next part starts.
-/

set_option autoImplicit false

namespace FlowScript

open RunM

/-! ## One part after another -/

namespace Site

/-- The machine after these branches of a statement, none of which is taken. -/
def Untaken (depth : Nat) (context : Context) (statement : Statement) (machine : Machine)
    (branches : List Conditional) (after : Machine) : Prop :=
  RunM.Returns (do
    announce context statement
    runBranches depth context branches) machine false after

/-- On a site that starts on the machine, one part is followed by work that leads to a
later machine, where another part starts. -/
inductive Precedes (machine : Machine) : Site → Machine → Prop where
  | argument {depth : Nat} {context : Context} {callee : Path} {before between : List Argument}
      {argument : Argument} {argumentsSpan : Span} {function : Value}
      {values others : CallArguments} {found after later : Machine} :
      (resolve callee.head callee.tail).Returns machine function found →
      (evaluateArguments (evaluate depth context) (.empty argumentsSpan) before).Returns found
        values after →
      (evaluateArguments (evaluate depth context) values (argument :: between)).Returns after
        others later →
      Precedes machine ⟨depth, context, .expression argument.value, after⟩ later
  | element {depth : Nat} {context : Context} {before between : List Expr} {element : Expr}
      {values others : List Value} {after later : Machine} :
      (evaluateElements (evaluate depth context) before).Returns machine values after →
      (evaluateElements (evaluate depth context) (element :: between)).Returns after others
        later →
      Precedes machine ⟨depth, context, .expression element, after⟩ later
  | entry {depth : Nat} {context : Context} {before between : List Entry} {entry : Entry}
      {values others : Dictionary Value} {after later : Machine} :
      (evaluateEntries (evaluate depth context) .empty before).Returns machine values after →
      (evaluateEntries (evaluate depth context) values (entry :: between)).Returns after others
        later →
      Precedes machine ⟨depth, context, .expression entry.value, after⟩ later
  | first {depth : Nat} {context : Context} {first : Expr} {before : List Operation}
      {value : Value} {after : Machine} :
      RunM.Returns (do
        let left ← evaluate depth context first
        applyOperations (evaluate depth context) context.program left before) machine value
        after →
      Precedes machine ⟨depth, context, .expression first, machine⟩ after
  | operand {depth : Nat} {context : Context} {first : Expr} {before between : List Operation}
      {operation : Operation} {left value : Value} {after later : Machine} :
      operation.op ≠ .isA →
      RunM.Returns (do
        let left ← evaluate depth context first
        applyOperations (evaluate depth context) context.program left before) machine left
        after →
      (applyOperations (evaluate depth context) context.program left
        (operation :: between)).Returns after value later →
      Precedes machine ⟨depth, context, .expression operation.operand, after⟩ later
  | awaited {depth : Nat} {context : Context} {operand : Expr} {awaited : Value}
      {after : Machine} :
      (evaluate depth context operand).Returns machine awaited after →
      Precedes machine ⟨depth, context, .expression operand, machine⟩ after
  | call {depth : Nat} {context : Context} {operand duration : Expr} {span called : Span}
      {awaited : Value} {timeout : Duration} {definition : Workflow} {arguments : CallArguments}
      {ready after : Machine} :
      (evaluateAwait depth context operand duration).Returns machine (awaited, timeout) ready →
      awaited.pendingCall? span = some (definition, arguments, called) →
      (enterWorkflow definition arguments called).Returns ready () after →
      Precedes machine ⟨depth, context, .expression operand, machine⟩ after
  | duration {depth : Nat} {context : Context} {operand duration : Expr} {span called : Span}
      {awaited limit : Value} {timeout : Duration} {definition : Workflow}
      {arguments : CallArguments} {middle limited ready after : Machine} :
      (evaluate depth context operand).Returns machine awaited middle →
      (evaluate depth context duration).Returns middle limit limited →
      (expectDuration limit duration.span).Returns limited timeout ready →
      awaited.pendingCall? span = some (definition, arguments, called) →
      (enterWorkflow definition arguments called).Returns ready () after →
      Precedes machine ⟨depth, context, .expression duration, middle⟩ after
  | condition {depth : Nat} {context : Context} {statement : Statement}
      {before between : List Conditional} {branch : Conditional} {after later : Machine} :
      Untaken depth context statement machine before after →
      Untaken depth context statement machine (before ++ branch :: between) later →
      Precedes machine ⟨depth, context, .expression branch.condition, after⟩ later
  | tested {depth : Nat} {context : Context} {statement : Statement} {before : List Conditional}
      {expr : Expr} {holds : Bool} {reached after : Machine} :
      Untaken depth context statement machine before reached →
      (testCondition depth context expr).Returns reached holds after →
      Precedes machine ⟨depth, context, .expression expr, reached⟩ after
  /-- The condition of a later branch. -/
  | testing {depth : Nat} {context : Context} {left : Site} {expr : Expr} {holds : Bool}
      {reached after : Machine} :
      Precedes machine left reached →
      (testCondition depth context expr).Returns reached holds after →
      Precedes machine left after
  | entering {left : Site} {after : Machine} {kind : ScopeKind} :
      Precedes machine left after → Precedes machine left (after.entering kind)
  | round {depth : Nat} {context : Context} {statement : Statement} {body : Block}
      {rounds more : Nat} {after later : Machine} :
      RunM.Returns (do
        announce context statement
        runRounds depth context body rounds) machine false after →
      RunM.Returns (do
        announce context statement
        runRounds depth context body (rounds + (more + 1))) machine false later →
      Precedes machine ⟨depth, context, .sequence body.statements, after.entering .loop⟩ later
  | statement {depth : Nat} {context : Context} {statement : Statement} {after : Machine} :
      (execute depth context statement).Returns machine () after →
      Precedes machine ⟨depth, context, .statement statement, machine⟩ after

/-- Both are the same part, or one of them precedes the other. -/
def InTurn (machine : Machine) (left right : Site) : Prop :=
  left = right ∨ Precedes machine left right.machine ∨ Precedes machine right left.machine

theorem parts_split {α : Type} {before other rest otherRest : List α} {part otherPart : α}
    (same : before ++ part :: rest = other ++ otherPart :: otherRest) :
    (before = other ∧ part = otherPart) ∨ (∃ between, other = before ++ part :: between) ∨
      ∃ between, before = other ++ otherPart :: between := by
  rcases List.append_eq_append_iff.mp same with ⟨between, rfl, tail⟩ | ⟨between, rfl, tail⟩
  · cases between with
    | nil =>
        cases tail
        exact .inl ⟨by simp, rfl⟩
    | cons head between =>
        cases tail
        exact .inr (.inl ⟨between, rfl⟩)
  · cases between with
    | nil =>
        cases tail
        exact .inl ⟨by simp, rfl⟩
    | cons head between =>
        cases tail
        exact .inr (.inr ⟨between, rfl⟩)

theorem Enters.expression_part {depth : Nat} {context : Context} {expr : Expr} {machine : Machine}
    {inner : Site} (enters : Enters ⟨depth, context, .expression expr, machine⟩ inner) :
    Evaluates ⟨depth, context, .expression expr, machine⟩ inner ∨
      ∃ definition, Invokes ⟨depth, context, .expression expr, machine⟩ definition inner := by
  cases enters with
  | evaluates evaluates => exact .inl evaluates
  | starts starts => cases starts
  | runs runs => cases runs
  | invokes invokes => exact .inr ⟨_, invokes⟩

theorem Enters.statement_part {outer inner : Site} (enters : outer.Enters inner)
    (statement : outer.work.isExpression = false) : outer.Starts inner ∨ outer.Runs inner := by
  cases enters with
  | evaluates evaluates => exact absurd (evaluates.isExpression.1.symm.trans statement) (by decide)
  | starts starts => exact .inl starts
  | runs runs => exact .inr runs
  | invokes invokes =>
      cases invokes
      cases statement

/-- The part for one of the items, taken up when those before it are done. -/
def AtItem {ι : Type} (items : List ι) (taken : ι → Prop) (reached : List ι → Machine → Prop)
    (part : ι → Machine → Site) (site : Site) : Prop :=
  ∃ before item rest after, items = before ++ item :: rest ∧ taken item ∧ reached before after ∧
    site = part item after

theorem AtItem.inTurn {ι : Type} {items : List ι} {taken : ι → Prop}
    {reached : List ι → Machine → Prop} {part : ι → Machine → Site} {machine : Machine}
    {left right : Site} (first : AtItem items taken reached part left)
    (second : AtItem items taken reached part right)
    (starts : ∀ item after, (part item after).machine = after)
    (unique : ∀ {before after other}, reached before after → reached before other → after = other)
    (precedes : ∀ {before item between after later}, taken item → reached before after →
      reached (before ++ item :: between) later → Precedes machine (part item after) later) :
    InTurn machine left right := by
  obtain ⟨before, item, rest, after, rfl, takes, reaches, rfl⟩ := first
  obtain ⟨other, otherItem, otherRest, later, same, otherTakes, otherReaches, rfl⟩ := second
  rcases parts_split same with ⟨rfl, rfl⟩ | ⟨between, rfl⟩ | ⟨between, rfl⟩
  · cases unique reaches otherReaches
    exact .inl rfl
  · refine .inr (.inl ?_)
    rw [starts]
    exact precedes takes reaches otherReaches
  · refine .inr (.inr ?_)
    rw [starts]
    exact precedes otherTakes otherReaches reaches

/-- The machine after a computation that returns. -/
def Reaches {α : Type} (action : RunM α) (machine after : Machine) : Prop :=
  ∃ value, action.Returns machine value after

theorem Reaches.unique {α : Type} {action : RunM α} {machine after other : Machine}
    (reaches : Reaches action machine after) (otherReaches : Reaches action machine other) :
    after = other := by
  obtain ⟨value, returns⟩ := reaches
  obtain ⟨otherValue, otherReturns⟩ := otherReaches
  exact (returns.unique otherReturns).2

section

variable {depth : Nat} {context : Context} {machine : Machine} {left right inner : Site}

/-! ## Parts of expressions -/

theorem enters_call {callee : Path} {arguments : List Argument} {argumentsSpan span : Span}
    (enters : Enters ⟨depth + 1, context,
      .expression (.call callee arguments argumentsSpan span), machine⟩ inner) :
    AtItem arguments (fun _ => True) (fun before => Reaches (do
        let _ ← resolve callee.head callee.tail
        evaluateArguments (evaluate depth context) (.empty argumentsSpan) before) machine)
      (fun argument after => ⟨depth, context, .expression argument.value, after⟩) inner := by
  rcases enters.expression_part with evaluates | ⟨_, invokes⟩
  · cases evaluates with
    | argument returns => exact ⟨_, _, _, _, rfl, trivial, ⟨_, returns⟩, rfl⟩
  · cases invokes

theorem enters_array {elements : List Expr} {span : Span}
    (enters : Enters ⟨depth + 1, context, .expression (.array elements span), machine⟩ inner) :
    AtItem elements (fun _ => True)
      (fun before => Reaches (evaluateElements (evaluate depth context) before) machine)
      (fun element after => ⟨depth, context, .expression element, after⟩) inner := by
  rcases enters.expression_part with evaluates | ⟨_, invokes⟩
  · cases evaluates with
    | element returns => exact ⟨_, _, _, _, rfl, trivial, ⟨_, returns⟩, rfl⟩
  · cases invokes

theorem enters_dictionary {entries : List Entry} {span : Span}
    (enters : Enters ⟨depth + 1, context, .expression (.dictionary entries span), machine⟩ inner) :
    AtItem entries (fun _ => True)
      (fun before => Reaches (evaluateEntries (evaluate depth context) .empty before) machine)
      (fun entry after => ⟨depth, context, .expression entry.value, after⟩) inner := by
  rcases enters.expression_part with evaluates | ⟨_, invokes⟩
  · cases evaluates with
    | entry returns => exact ⟨_, _, _, _, rfl, trivial, ⟨_, returns⟩, rfl⟩
  · cases invokes

/-- A chain leads to its first part or to the right side of an operation. -/
theorem enters_chain {first : Expr} {operations : List Operation} {span : Span}
    (enters : Enters ⟨depth + 1, context, .expression (.chain first operations span), machine⟩
      inner) :
    inner = ⟨depth, context, .expression first, machine⟩ ∨
      AtItem operations (fun operation => operation.op ≠ .isA) (fun before => Reaches (do
          let left ← evaluate depth context first
          applyOperations (evaluate depth context) context.program left before) machine)
        (fun operation after => ⟨depth, context, .expression operation.operand, after⟩) inner := by
  rcases enters.expression_part with evaluates | ⟨_, invokes⟩
  · cases evaluates with
    | first => exact .inl rfl
    | operand evaluated returns => exact .inr ⟨_, _, _, _, rfl, evaluated, ⟨_, returns⟩, rfl⟩
  · cases invokes

theorem inTurn_call {callee : Path} {arguments : List Argument} {argumentsSpan span : Span}
    (first : Enters ⟨depth + 1, context,
      .expression (.call callee arguments argumentsSpan span), machine⟩ left)
    (second : Enters ⟨depth + 1, context,
      .expression (.call callee arguments argumentsSpan span), machine⟩ right) :
    InTurn machine left right := by
  refine (enters_call first).inTurn (enters_call second) (fun _ _ => rfl) Reaches.unique ?_
  rintro before argument between after later - ⟨values, returns⟩ ⟨others, laterReturns⟩
  obtain ⟨function, found, resolved, evaluated⟩ := returns.steps
  have goesOn := laterReturns.rest resolved
  rw [evaluateArguments_append] at goesOn
  exact .argument resolved evaluated (goesOn.rest evaluated)

theorem inTurn_array {elements : List Expr} {span : Span}
    (first : Enters ⟨depth + 1, context, .expression (.array elements span), machine⟩ left)
    (second : Enters ⟨depth + 1, context, .expression (.array elements span), machine⟩ right) :
    InTurn machine left right := by
  refine (enters_array first).inTurn (enters_array second) (fun _ _ => rfl) Reaches.unique ?_
  rintro before element between after later - ⟨values, returns⟩ ⟨others, laterReturns⟩
  rw [evaluateElements_append] at laterReturns
  obtain ⟨items, _, goesOn, joined⟩ := (laterReturns.rest returns).steps
  obtain ⟨-, rfl⟩ := joined.of_pure
  exact .element returns goesOn

theorem inTurn_dictionary {entries : List Entry} {span : Span}
    (first : Enters ⟨depth + 1, context, .expression (.dictionary entries span), machine⟩ left)
    (second : Enters ⟨depth + 1, context, .expression (.dictionary entries span), machine⟩ right) :
    InTurn machine left right := by
  refine (enters_dictionary first).inTurn (enters_dictionary second) (fun _ _ => rfl)
    Reaches.unique ?_
  rintro before entry between after later - ⟨values, returns⟩ ⟨others, laterReturns⟩
  rw [evaluateEntries_append] at laterReturns
  exact .entry returns (laterReturns.rest returns)

theorem inTurn_chain {first : Expr} {operations : List Operation} {span : Span}
    (leftEnters : Enters ⟨depth + 1, context, .expression (.chain first operations span), machine⟩
      left)
    (rightEnters : Enters ⟨depth + 1, context, .expression (.chain first operations span), machine⟩
      right) : InTurn machine left right := by
  rcases enters_chain leftEnters with rfl | leftAt
  · rcases enters_chain rightEnters with rfl | ⟨_, _, _, _, -, -, ⟨_, returns⟩, rfl⟩
    · exact .inl rfl
    · exact .inr (.inl (.first returns))
  · rcases enters_chain rightEnters with rfl | rightAt
    · obtain ⟨_, _, _, _, -, -, ⟨_, returns⟩, rfl⟩ := leftAt
      exact .inr (.inr (.first returns))
    · refine leftAt.inTurn rightAt (fun _ _ => rfl) Reaches.unique ?_
      rintro before operation between after later evaluated ⟨value, returns⟩ ⟨others, laterReturns⟩
      obtain ⟨start, started, firstReturns, applied⟩ := returns.steps
      have goesOn := laterReturns.rest firstReturns
      rw [applyOperations_append] at goesOn
      exact .operand evaluated returns (goesOn.rest applied)

/-- An await leads to what it awaits, to its duration and to the body of a call. -/
theorem enters_await {operand duration : Expr} {span : Span}
    (enters : Enters ⟨depth + 1, context, .expression (.await operand duration span), machine⟩
      inner) :
    inner = ⟨depth, context, .expression operand, machine⟩ ∨
      (∃ awaited after, (evaluate depth context operand).Returns machine awaited after ∧
        inner = ⟨depth, context, .expression duration, after⟩) ∨
      ∃ awaited timeout ready definition arguments called after,
        (evaluateAwait depth context operand duration).Returns machine (awaited, timeout) ready ∧
        awaited.pendingCall? span = some (definition, arguments, called) ∧
        (enterWorkflow definition arguments called).Returns ready () after ∧
        inner = ⟨depth, context.awaiting ready.now timeout,
          .sequence definition.body.statements, after⟩ := by
  rcases enters.expression_part with evaluates | ⟨_, invokes⟩
  · cases evaluates with
    | awaited => exact .inl rfl
    | duration returns => exact .inr (.inl ⟨_, _, returns, rfl⟩)
  · cases invokes with
    | body evaluated pending entered =>
        exact .inr (.inr ⟨_, _, _, _, _, _, _, evaluated, pending, entered, rfl⟩)

theorem inTurn_await {operand duration : Expr} {span : Span}
    (first : Enters ⟨depth + 1, context, .expression (.await operand duration span), machine⟩ left)
    (second : Enters ⟨depth + 1, context, .expression (.await operand duration span), machine⟩
      right) : InTurn machine left right := by
  have durationFirst : ∀ {awaited other after timeout ready definition arguments called entered},
      (evaluate depth context operand).Returns machine awaited after →
      (evaluateAwait depth context operand duration).Returns machine (other, timeout) ready →
      other.pendingCall? span = some (definition, arguments, called) →
      (enterWorkflow definition arguments called).Returns ready () entered →
      Precedes machine ⟨depth, context, .expression duration, after⟩ entered := by
    intro awaited other after timeout ready definition arguments called entered returns evaluated
      pending enters
    obtain ⟨limit, limited, limits, expects⟩ := (RunM.Returns.rest evaluated returns).steps
    obtain ⟨time, _, expects, same⟩ := expects.steps
    cases same
    exact .duration returns limits expects pending enters
  rcases enters_await first with rfl | ⟨awaited, after, returns, rfl⟩ |
    ⟨awaited, timeout, ready, definition, arguments, called, after, evaluated, pending, enters, rfl⟩
  · rcases enters_await second with rfl | ⟨awaited, after, returns, rfl⟩ |
      ⟨awaited, timeout, ready, definition, arguments, called, after, evaluated, pending, enters,
        rfl⟩
    · exact .inl rfl
    · exact .inr (.inl (.awaited returns))
    · exact .inr (.inl (.call evaluated pending enters))
  · rcases enters_await second with rfl | ⟨other, otherAfter, otherReturns, rfl⟩ |
      ⟨awaited, timeout, ready, definition, arguments, called, after, evaluated, pending, enters,
        rfl⟩
    · exact .inr (.inr (.awaited returns))
    · obtain ⟨rfl, rfl⟩ := returns.unique otherReturns
      exact .inl rfl
    · exact .inr (.inl (durationFirst returns evaluated pending enters))
  · rcases enters_await second with rfl | ⟨awaited, after, returns, rfl⟩ |
      ⟨_, _, _, _, _, _, _, otherEvaluated, otherPending, otherEnters, rfl⟩
    · exact .inr (.inr (.call evaluated pending enters))
    · exact .inr (.inr (durationFirst returns evaluated pending enters))
    · obtain ⟨same, rfl⟩ := evaluated.unique otherEvaluated
      cases same
      cases pending.symm.trans otherPending
      obtain ⟨-, rfl⟩ := enters.unique otherEnters
      exact .inl rfl

/-! ## Parts of statements -/

section

variable {statement : Statement} {branch : Conditional} {before between : List Conditional}
  {reached after later : Machine}

theorem Untaken.unique (untaken : Untaken depth context statement machine before after)
    (other : Untaken depth context statement machine before later) : after = later :=
  (RunM.Returns.unique untaken other).2

theorem Untaken.rest (untaken : Untaken depth context statement machine before after)
    (more : Untaken depth context statement machine (before ++ branch :: between) later) :
    RunM.Returns (do
      let holds ← testCondition depth context branch.condition
      takeBranch depth context branch between holds) after false later := by
  obtain ⟨_, announced, announces, tried⟩ := RunM.Returns.steps untaken
  have goesOn := RunM.Returns.rest more announces
  rw [runBranches_append] at goesOn
  exact goesOn.rest tried

/-- No branch behind one that is taken is tried. -/
theorem Untaken.not_holds (untaken : Untaken depth context statement machine before reached)
    (more : Untaken depth context statement machine (before ++ branch :: between) later) :
    ¬(testCondition depth context branch.condition).Returns reached true after := by
  intro holds
  have taken := (untaken.rest more).rest holds
  obtain ⟨_, _, -, answered⟩ := RunM.Returns.steps taken
  cases answered

end

/-- A branching leads to conditions, to the block of a branch and to the last block. -/
theorem enters_branch {first : Conditional} {others : List Conditional}
    {otherwise : Option Block} {span : Span}
    (enters : Enters ⟨depth + 1, context, .statement (.branch first others otherwise span),
      machine⟩ inner) :
    AtItem (first :: others) (fun _ => True)
      (Untaken depth context (.branch first others otherwise span) machine)
      (fun branch after => ⟨depth, context, .expression branch.condition, after⟩) inner ∨
    (∃ before branch rest reached after, first :: others = before ++ branch :: rest ∧
      Untaken depth context (.branch first others otherwise span) machine before reached ∧
      (testCondition depth context branch.condition).Returns reached true after ∧
      inner = ⟨depth, context, .sequence branch.body.statements, after.entering .block⟩) ∨
    ∃ block after, Untaken depth context (.branch first others otherwise span) machine
        (first :: others) after ∧ otherwise = some block ∧
      inner = ⟨depth, context, .sequence block.statements, after.entering .block⟩ := by
  rcases enters.statement_part rfl with starts | runs
  · cases starts with
    | value owned => cases owned
    | condition split returns => exact .inl ⟨_, _, _, _, split, trivial, returns, rfl⟩
  · cases runs with
    | branch split returns holds =>
        exact .inr (.inl ⟨_, _, _, _, _, split, returns, holds, rfl⟩)
    | otherwise returns => exact .inr (.inr ⟨_, _, returns, rfl, rfl⟩)

theorem inTurn_branch {first : Conditional} {others : List Conditional}
    {otherwise : Option Block} {span : Span}
    (leftEnters : Enters ⟨depth + 1, context, .statement (.branch first others otherwise span),
      machine⟩ left)
    (rightEnters : Enters ⟨depth + 1, context, .statement (.branch first others otherwise span),
      machine⟩ right) : InTurn machine left right := by
  -- Only one block is run, after every condition that is tested.
  have conditionFirst : ∀ {condition block},
      AtItem (first :: others) (fun _ => True)
        (Untaken depth context (.branch first others otherwise span) machine)
        (fun branch after => ⟨depth, context, .expression branch.condition, after⟩) condition →
      Enters ⟨depth + 1, context, .statement (.branch first others otherwise span), machine⟩
        block → block.work.isExpression = false → Precedes machine condition block.machine := by
    rintro condition block ⟨before, branch, rest, after, split, -, untaken, rfl⟩ enters isBlock
    rcases enters_branch enters with ⟨_, _, _, _, -, -, -, rfl⟩ |
      ⟨other, otherBranch, otherRest, reached, judged, otherSplit, otherUntaken, holds, rfl⟩ |
      ⟨last, judged, allUntaken, -, rfl⟩
    · cases isBlock
    · rcases parts_split (split.symm.trans otherSplit) with ⟨rfl, rfl⟩ | ⟨between, rfl⟩ |
        ⟨between, rfl⟩
      · cases untaken.unique otherUntaken
        exact .entering (.tested untaken holds)
      · exact .entering (.testing (.condition untaken otherUntaken) holds)
      · exact absurd holds (otherUntaken.not_holds untaken)
    · rw [split] at allUntaken
      exact .entering (.condition untaken allUntaken)
  rcases enters_branch leftEnters with leftAt |
    ⟨before, branch, rest, reached, after, split, untaken, holds, rfl⟩ |
    ⟨last, after, allUntaken, lastBlock, rfl⟩
  · rcases enters_branch rightEnters with rightAt | ⟨_, _, _, _, _, -, -, -, rfl⟩ |
      ⟨_, _, -, -, rfl⟩
    · exact leftAt.inTurn rightAt (fun _ _ => rfl) Untaken.unique
        fun _ untaken more => .condition untaken more
    · exact .inr (.inl (conditionFirst leftAt rightEnters rfl))
    · exact .inr (.inl (conditionFirst leftAt rightEnters rfl))
  · rcases enters_branch rightEnters with rightAt |
      ⟨other, otherBranch, otherRest, otherReached, otherAfter, otherSplit, otherUntaken,
        otherHolds, rfl⟩ | ⟨_, _, allUntaken, -, rfl⟩
    · exact .inr (.inr (conditionFirst rightAt leftEnters rfl))
    · rcases parts_split (split.symm.trans otherSplit) with ⟨rfl, rfl⟩ | ⟨between, rfl⟩ |
        ⟨between, rfl⟩
      · cases untaken.unique otherUntaken
        obtain ⟨-, rfl⟩ := holds.unique otherHolds
        exact .inl rfl
      · exact absurd holds (untaken.not_holds otherUntaken)
      · exact absurd otherHolds (otherUntaken.not_holds untaken)
    · rw [split] at allUntaken
      exact absurd holds (untaken.not_holds allUntaken)
  · rcases enters_branch rightEnters with rightAt |
      ⟨_, _, _, _, _, split, untaken, holds, rfl⟩ | ⟨_, _, otherUntaken, otherBlock, rfl⟩
    · exact .inr (.inr (conditionFirst rightAt leftEnters rfl))
    · rw [split] at allUntaken
      exact absurd holds (untaken.not_holds allUntaken)
    · cases lastBlock.symm.trans otherBlock
      cases allUntaken.unique otherUntaken
      exact .inl rfl

theorem inTurn_loop {body : Block} {span : Span}
    (first : Enters ⟨depth + 1, context, .statement (.loop body span), machine⟩ left)
    (second : Enters ⟨depth + 1, context, .statement (.loop body span), machine⟩ right) :
    InTurn machine left right := by
  have inversion : ∀ {inner}, Enters ⟨depth + 1, context, .statement (.loop body span), machine⟩
      inner → ∃ rounds after, RunM.Returns (do
        announce context (.loop body span)
        runRounds depth context body rounds) machine false after ∧
      inner = ⟨depth, context, .sequence body.statements, after.entering .loop⟩ := by
    intro inner enters
    rcases enters.statement_part rfl with starts | runs
    · cases starts with
      | value owned => cases owned
    · cases runs with
      | round _ returns => exact ⟨_, _, returns, rfl⟩
  obtain ⟨rounds, after, returns, rfl⟩ := inversion first
  obtain ⟨others, later, otherReturns, rfl⟩ := inversion second
  rcases Nat.lt_trichotomy rounds others with fewer | rfl | more
  · obtain ⟨between, rfl⟩ := Nat.exists_eq_add_of_lt fewer
    exact .inr (.inl (.entering (.round returns otherReturns)))
  · obtain ⟨-, rfl⟩ := returns.unique otherReturns
    exact .inl rfl
  · obtain ⟨between, rfl⟩ := Nat.exists_eq_add_of_lt more
    exact .inr (.inr (.entering (.round otherReturns returns)))

theorem inTurn_sequence {statements : List Statement}
    (first : Enters ⟨depth, context, .sequence statements, machine⟩ left)
    (second : Enters ⟨depth, context, .sequence statements, machine⟩ right) :
    InTurn machine left right := by
  have inversion : ∀ {inner}, Enters ⟨depth, context, .sequence statements, machine⟩ inner →
      ∃ statement rest, statements = statement :: rest ∧
        (inner = ⟨depth, context, .statement statement, machine⟩ ∨
          ∃ after, (execute depth context statement).Returns machine () after ∧
            inner = ⟨depth, context, .sequence rest, after⟩) := by
    intro inner enters
    rcases enters.statement_part rfl with starts | runs
    · cases starts
    · cases runs with
      | first => exact ⟨_, _, rfl, .inl rfl⟩
      | next returns _ => exact ⟨_, _, rfl, .inr ⟨_, returns, rfl⟩⟩
  obtain ⟨statement, rest, rfl, place⟩ := inversion first
  obtain ⟨_, _, same, otherPlace⟩ := inversion second
  cases same
  rcases place with rfl | ⟨after, returns, rfl⟩
  · rcases otherPlace with rfl | ⟨after, returns, rfl⟩
    · exact .inl rfl
    · exact .inr (.inl (.statement returns))
  · rcases otherPlace with rfl | ⟨later, otherReturns, rfl⟩
    · exact .inr (.inr (.statement returns))
    · obtain ⟨-, rfl⟩ := returns.unique otherReturns
      exact .inl rfl

theorem same_declaration {name typeName : Identifier} {value : Option Expr} {span : Span}
    (first : Enters ⟨depth + 1, context, .statement (.declaration name typeName value span),
      machine⟩ left)
    (second : Enters ⟨depth + 1, context, .statement (.declaration name typeName value span),
      machine⟩ right) : left = right := by
  have inversion : ∀ {inner}, Enters ⟨depth + 1, context,
      .statement (.declaration name typeName value span), machine⟩ inner →
      ∃ initializer kind after, value = some initializer ∧ RunM.Returns (do
        announce context (.declaration name typeName value span)
        resolveKind typeName) machine kind after ∧
      inner = ⟨depth, context, .expression initializer, after⟩ := by
    intro inner enters
    rcases enters.statement_part rfl with starts | runs
    · cases starts with
      | declaration returns => exact ⟨_, _, _, rfl, returns, rfl⟩
      | value owned => cases owned
    · cases runs
  obtain ⟨initializer, kind, after, found, returns, rfl⟩ := inversion first
  obtain ⟨_, _, _, otherFound, otherReturns, rfl⟩ := inversion second
  cases found.symm.trans otherFound
  obtain ⟨-, rfl⟩ := returns.unique otherReturns
  rfl

/-- A statement with a value leads to that value alone. -/
theorem same_value {statement : Statement} {value : Expr} (owned : statement.value? = some value)
    (first : Enters ⟨depth + 1, context, .statement statement, machine⟩ left)
    (second : Enters ⟨depth + 1, context, .statement statement, machine⟩ right) :
    left = right := by
  have inversion : ∀ {inner}, Enters ⟨depth + 1, context, .statement statement, machine⟩ inner →
      ∃ after, (announce context statement).Returns machine () after ∧
        inner = ⟨depth, context, .expression value, after⟩ := by
    intro inner enters
    rcases enters.statement_part rfl with starts | runs
    · cases starts with
      | value other returns =>
          cases owned.symm.trans other
          exact ⟨_, returns, rfl⟩
      | declaration | condition => cases owned
    · cases runs <;> cases owned
  obtain ⟨after, returns, rfl⟩ := inversion first
  obtain ⟨_, otherReturns, rfl⟩ := inversion second
  obtain ⟨-, rfl⟩ := returns.unique otherReturns
  rfl

end

/-- Without any depth left, no part is taken up. -/
theorem Enters.depth_pos {outer inner : Site} (enters : outer.Enters inner)
    (single : ∀ statements, outer.work ≠ .sequence statements) :
    ∃ depth, outer.depth = depth + 1 := by
  cases enters with
  | evaluates evaluates => cases evaluates <;> exact ⟨_, rfl⟩
  | starts starts => cases starts <;> exact ⟨_, rfl⟩
  | runs runs => cases runs <;> first | exact ⟨_, rfl⟩ | exact absurd rfl (single _)
  | invokes invokes => cases invokes; exact ⟨_, rfl⟩

/-- The parts of a site come one after another. -/
theorem Enters.inTurn {outer left right : Site} (first : outer.Enters left)
    (second : outer.Enters right) : InTurn outer.machine left right := by
  obtain ⟨depth, context, work, machine⟩ := outer
  cases work with
  | sequence statements => exact inTurn_sequence first second
  | statement statement =>
      obtain ⟨depth, rfl⟩ := first.depth_pos (by simp)
      cases statement with
      | declaration name typeName value span => exact .inl (same_declaration first second)
      | branch condition others otherwise span => exact inTurn_branch first second
      | loop body span => exact inTurn_loop first second
      | assignment | delay | returning | raising | expression =>
          exact .inl (same_value rfl first second)
      | importing | breaking | workflow =>
          rcases first.statement_part rfl with starts | runs
          · cases starts with
            | value owned => cases owned
          · cases runs
  | expression expr =>
      obtain ⟨depth, rfl⟩ := first.depth_pos (by simp)
      cases expr with
      | call callee arguments argumentsSpan span => exact inTurn_call first second
      | array elements span => exact inTurn_array first second
      | dictionary entries span => exact inTurn_dictionary first second
      | chain start operations span => exact inTurn_chain first second
      | await operand duration span => exact inTurn_await first second
      | literal | path | unary | attempt =>
          rcases first.expression_part with evaluates | ⟨_, invokes⟩
          · rcases second.expression_part with others | ⟨_, invokes⟩
            · cases evaluates <;> cases others <;> exact .inl rfl
            · cases invokes
          · cases invokes

end Site

end FlowScript
