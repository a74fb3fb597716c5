import FlowScript.Proofs.Growth.Surroundings
import FlowScript.Proofs.Guard.Shield
import FlowScript.Proofs.Storage.Reach

/-!
# Operands of a chain

A chain applies its operators from left to right, each of them after the operand on its
right was evaluated. Only an operand that something else leads to can have changed by
then: the result of a step is a new cell, which nothing leads to.
-/

set_option autoImplicit false

namespace FlowScript

open RunM

variable {allowed : Workflow → Prop}

/-! ## New scalars -/

/-- From the machine on, a new scalar is made and nothing else happens. -/
inductive Machine.MakesScalar (machine : Machine) : Value → Machine → Prop where
  | intro (scalar : Scalar) :
      MakesScalar machine (.stored scalar.kind machine.size)
        { machine with store := machine.store.push (.scalar scalar) }

namespace Machine.MakesScalar

variable {machine final : Machine} {value : Value}

theorem sound (makes : machine.MakesScalar value final) (sound : machine.Sound allowed) :
    final.Sound allowed ∧ value.Within allowed final.size := by
  cases makes with
  | intro scalar =>
      have copied := newScalar_copied sound.store scalar
      exact ⟨sound.withStore copied.advances, copied.within _ List.mem_cons_self⟩

theorem size_le (makes : machine.MakesScalar value final) : machine.size ≤ final.size := by
  cases makes with
  | intro scalar =>
      have size := machine.store.size_push (.scalar scalar)
      exact Nat.le_trans (Nat.le_succ _) (Nat.le_of_eq size.symm)

/-- Nothing leads to a new scalar. -/
theorem isPrivate (makes : machine.MakesScalar value final) (sound : machine.Sound allowed) :
    value.Private final 0 [] := by
  cases makes with
  | intro scalar => exact Value.private_scalar sound rfl rfl (Nat.zero_le _) (by simp)

end Machine.MakesScalar

theorem Operation.after_applied (operation : Operation) (left right : Value) (store : Store) :
    After (operation.applied left right).run store fun outcome final =>
      ∀ value, outcome = .ok value → ∃ scalar : Scalar,
        value = .stored scalar.kind store.size ∧ final = store.push (.scalar scalar) := by
  unfold Operation.applied
  split
  · exact after_operator (Value.binaryResult? store .isIn right left) _ store
  · exact after_operator (Value.binaryResult? store operation.op left right) _ store

theorem Operation.applied_makes {operation : Operation} {left right value : Value}
    {machine final : Machine}
    (returns : (onStoreAt operation.span (operation.applied left right)).Returns machine value
      final) : machine.MakesScalar value final := by
  obtain ⟨store, ran, rfl⟩ := returns.onStoreAt
  obtain ⟨scalar, rfl, rfl⟩ :=
    (operation.after_applied left right machine.store).of_run ran value rfl
  exact .intro scalar

theorem typeTest_makes {program : Program} {left value : Value} {operand : Expr}
    {machine final : Machine}
    (returns : (typeTest program left operand).Returns machine value final) :
    machine.MakesScalar value final := by
  unfold typeTest at returns
  dsimp only at returns
  split at returns
  · cases returns
    exact .intro _
  · cases returns

/-- An operation ends with a new scalar. -/
theorem applyOperation_makes {depth : Nat} {context : Context} {left value : Value}
    {operation : Operation} {machine final : Machine} (sound : machine.Sound fun _ => True)
    (returns : (applyOperation (evaluate depth context) context.program left operation).Returns
      machine value final) :
    ∃ ready : Machine, ready.Sound (fun _ => True) ∧ machine.size ≤ ready.size ∧
      ready.MakesScalar value final := by
  by_cases tests : operation.op = .isA
  · rw [applyOperation, tests] at returns
    exact ⟨machine, sound, Nat.le_refl _, typeTest_makes returns⟩
  · rw [applyOperation_eq _ _ _ tests] at returns
    obtain ⟨right, ready, evaluated, applies⟩ := returns.steps
    have evaluates := (evaluation_preserves (fun _ _ _ _ _ _ => trivial) depth).1 context
      operation.operand sound
    exact ⟨ready, (evaluates.returned evaluated).1, (evaluates.keeps evaluated).size_le,
      Operation.applied_makes applies⟩

theorem applyOperations_makes {depth : Nat} {context : Context} {left value : Value}
    {operation : Operation} {rest : List Operation} {machine final : Machine}
    (sound : machine.Sound fun _ => True)
    (returns : (applyOperations (evaluate depth context) context.program left
      (operation :: rest)).Returns machine value final) :
    ∃ ready : Machine, ready.Sound (fun _ => True) ∧ machine.size ≤ ready.size ∧
      ready.MakesScalar value final := by
  induction rest generalizing left operation machine with
  | nil =>
      rw [applyOperations_cons] at returns
      obtain ⟨result, applied, applies, ends⟩ := returns.steps
      obtain ⟨rfl, rfl⟩ := ends.of_pure
      exact applyOperation_makes sound applies
  | cons next rest ih =>
      rw [applyOperations_cons] at returns
      obtain ⟨result, applied, applies, others⟩ := returns.steps
      obtain ⟨ready, readySound, before, makes⟩ := applyOperation_makes sound applies
      obtain ⟨last, lastSound, after, lastMakes⟩ := ih (makes.sound readySound).1 others
      exact ⟨last, lastSound, Nat.le_trans before (Nat.le_trans makes.size_le after), lastMakes⟩

/-! ## Chains -/

/-- Operators are applied to a left operand from left to right, each after its right
operand was evaluated. While that happens, a left operand that nothing else leads to
keeps its contents; no result of an operator has anything else that leads to it. -/
inductive FoldsLeft (evaluate : Expr → RunM Value) (program : Program) :
    Value → Machine → List Operation → Value → Machine → Prop where
  | done {left : Value} {machine : Machine} :
      FoldsLeft evaluate program left machine [] left machine
  | test {operation : Operation} {rest : List Operation} {left result value : Value}
      {machine tested final : Machine} : operation.op = .isA →
      (typeTest program left operation.operand).Returns machine result tested →
      result.Private tested 0 [] → FoldsLeft evaluate program result tested rest value final →
      FoldsLeft evaluate program left machine (operation :: rest) value final
  | apply {operation : Operation} {rest : List Operation} {left right result value : Value}
      {machine ready applied final : Machine} : operation.op ≠ .isA →
      (evaluate operation.operand).Returns machine right ready →
      (left.Private machine 0 [] → left.Alike machine.store ready.store left) →
      (onStoreAt operation.span (operation.applied left right)).Returns ready result applied →
      result.Private applied 0 [] → FoldsLeft evaluate program result applied rest value final →
      FoldsLeft evaluate program left machine (operation :: rest) value final

theorem FoldsLeft.returns {evaluate : Expr → RunM Value} {program : Program}
    {operations : List Operation} {left value : Value} {machine final : Machine}
    (folds : FoldsLeft evaluate program left machine operations value final) :
    (applyOperations evaluate program left operations).Returns machine value final := by
  induction folds with
  | done => rfl
  | @test operation rest _ _ _ _ _ _ tests returns _ _ ih =>
      rw [applyOperations_cons, applyOperation, tests]
      exact returns.bind ih
  | apply evaluated returns _ applies _ _ ih =>
      rw [applyOperations_cons, applyOperation_eq _ _ _ evaluated]
      exact (returns.bind applies).bind ih

/-- What runs on the machine leaves private values as they are. -/
theorem Value.Private.evaluated {bound : Nat} {hand : List Value} {machine final : Machine}
    (sound : machine.Sound allowed) {left : Value} (within : left.Within allowed machine.size)
    (isPrivate : left.Private machine bound hand) {depth : Nat} {context : Context} {expr : Expr}
    {value : Value} (returns : (evaluate depth context expr).Returns machine value final) :
    left.Alike machine.store final.store left := by
  obtain ⟨rank, ranked⟩ := sound.store.ranked
  have keeps := (Guard.evaluation (shielded machine bound hand rank ranked) depth).1 context expr
    (fun _ _ => trivial) machine (Machine.shields_self ranked)
  have shields := (After.of_run keeps returns).1.store
  exact left.alike_of_same sound.store within fun _ => isPrivate.same sound within shields

theorem folds_of_returns {depth : Nat} {context : Context} {operations : List Operation}
    {left value : Value} {machine final : Machine} (sound : machine.Sound fun _ => True)
    (within : left.Within (fun _ => True) machine.size)
    (returns : (applyOperations (evaluate depth context) context.program left operations).Returns
      machine value final) :
    FoldsLeft (evaluate depth context) context.program left machine operations value final := by
  induction operations generalizing left machine with
  | nil =>
      obtain ⟨rfl, rfl⟩ := returns.of_pure
      exact .done
  | cons operation rest ih =>
      rw [applyOperations_cons] at returns
      obtain ⟨result, applied, applies, others⟩ := returns.steps
      by_cases tests : operation.op = .isA
      · rw [applyOperation, tests] at applies
        have makes := typeTest_makes applies
        obtain ⟨appliedSound, resultWithin⟩ := makes.sound sound
        exact .test tests applies (makes.isPrivate sound) (ih appliedSound resultWithin others)
      · rw [applyOperation_eq _ _ _ tests] at applies
        obtain ⟨right, ready, evaluated, applies⟩ := applies.steps
        have evaluates := (evaluation_preserves (fun _ _ _ _ _ _ => trivial) depth).1 context
        obtain ⟨readySound, -⟩ := (evaluates operation.operand sound).returned evaluated
        have makes := Operation.applied_makes applies
        obtain ⟨appliedSound, resultWithin⟩ := makes.sound readySound
        exact .apply tests evaluated (fun isPrivate => isPrivate.evaluated sound within evaluated)
          applies (makes.isPrivate readySound) (ih appliedSound resultWithin others)

/-- A chain is the left fold of its operators over its operands, in the order in which they
are evaluated. The left operand of each operator has the contents it was evaluated to,
unless it is the first of the chain and something else leads to it. -/
theorem operands_keep_values {depth : Nat} {context : Context} {first : Expr}
    {operations : List Operation} {span : Span} {machine final : Machine} {value : Value}
    (sound : machine.Sound fun _ => True) :
    (evaluate (depth + 1) context (.chain first operations span)).Returns machine value final ↔
      ∃ start started, (evaluate depth context first).Returns machine start started ∧
        FoldsLeft (evaluate depth context) context.program start started operations value
          final := by
  have evaluates := (evaluation_preserves (fun _ _ _ _ _ _ => trivial) depth).1 context
  constructor
  · intro returns
    obtain ⟨start, started, firstReturns, others⟩ := RunM.Returns.steps returns
    obtain ⟨startedSound, within⟩ := (evaluates first sound).returned firstReturns
    exact ⟨start, started, firstReturns, folds_of_returns startedSound within others⟩
  · rintro ⟨start, started, firstReturns, folds⟩
    exact RunM.Returns.bind firstReturns folds.returns

/-- The operation `+ await bump() for 1sec`. -/
def bumpOperation : Operation :=
  let bump : Path := ⟨⟨"bump", .origin⟩, [], .origin⟩
  ⟨.plus, .await (.call bump [] .origin .origin) (.literal (.duration ⟨1, .sec⟩) .origin) .origin,
    .origin⟩

/-- Adds to `x` what a call of `bump` gives: after `x : integer = 1`, where `bump` assigns 10
to `x` and returns 1. Other operations may come before. -/
def bumpChain (before : List Operation) : Expr :=
  .chain (.path ⟨⟨"x", .origin⟩, [], .origin⟩) (before ++ [bumpOperation]) .origin

def bumpRun (before : List Operation) : Run :=
  let name (text : String) : Identifier := ⟨text, .origin⟩
  let integer (number : Int64) : Expr := .literal (.integer number) .origin
  .ofStatements
    [.declaration (name "x") (name "integer") (some (integer 1)) .origin,
    .workflow ⟨name "bump", some ⟨[], some (name "integer"), .origin⟩,
      ⟨[.assignment ⟨name "x", [], .origin⟩ (integer 10) .origin, .returning (integer 1) .origin],
        .origin⟩, .origin⟩,
    .returning (bumpChain before) .origin] 9

/-- The operation `+ 0`. -/
def zeroOperation : Operation := ⟨.plus, .literal (.integer 0) .origin, .origin⟩

/-- The chain `x + 0 + await bump() for 1sec` gives 2: the sum of the first two operands
is a new value. -/
theorem bumpChain_folds :
    ∃ (machine started final : Machine) (start value : Value) (depth : Nat) (context : Context),
      (bumpRun [zeroOperation]).Performs
        ⟨depth + 1, context, .expression (bumpChain [zeroOperation]), machine⟩ ∧
      final.store.integer? value = some 2 ∧
      FoldsLeft (evaluate depth context) context.program start started
        [zeroOperation, bumpOperation] value final := by
  obtain ⟨machine, final, value, performed, returns, number⟩ : ∃ machine final value,
      (bumpRun [zeroOperation]).Performs ⟨8, (bumpRun [zeroOperation]).root.context,
        .expression (bumpChain [zeroOperation]), machine⟩ ∧
      (evaluate 8 (bumpRun [zeroOperation]).root.context (bumpChain [zeroOperation])).Returns
        machine value final ∧
      final.store.integer? value = some 2 :=
    ⟨_, _, _, .tail
        (Run.performs_statement 2 rfl (.unit_of_isSome (by decide +kernel)) (by decide +kernel))
        (.starts (.value rfl (.unit_of_isSome (by decide +kernel)))),
      .of_isSome (by decide +kernel), by decide +kernel⟩
  have sound := performed.sound (fun _ _ _ _ _ _ => trivial) fun _ _ _ _ => trivial
  obtain ⟨start, started, -, folds⟩ := (operands_keep_values sound.machine).mp returns
  exact ⟨machine, started, final, start, value, _, _, performed, number, folds⟩

/-- The left operand of `x + await bump() for 1sec` is 1 when it is evaluated, and so is the
right one, but the chain gives 11. -/
theorem bumpChain_aliased :
    ∃ (machine started ready final : Machine) (left right value : Value) (depth : Nat)
      (context : Context),
      (bumpRun []).Performs ⟨depth + 1, context, .expression (bumpChain []), machine⟩ ∧
      (evaluate depth context (.path ⟨⟨"x", .origin⟩, [], .origin⟩)).Returns machine left started ∧
      started.store.integer? left = some 1 ∧
      (evaluate depth context bumpOperation.operand).Returns started right ready ∧
      ready.store.integer? right = some 1 ∧
      (evaluate (depth + 1) context (bumpChain [])).Returns machine value final ∧
      final.store.integer? value = some 11 :=
  ⟨_, _, _, _, _, _, _, 7, (bumpRun []).root.context, .tail
      (Run.performs_statement 2 rfl (.unit_of_isSome (by decide +kernel)) (by decide +kernel))
      (.starts (.value rfl (.unit_of_isSome (by decide +kernel)))),
    .of_isSome (by decide +kernel), by decide +kernel, .of_isSome (by decide +kernel),
    by decide +kernel, .of_isSome (by decide +kernel), by decide +kernel⟩

end FlowScript
