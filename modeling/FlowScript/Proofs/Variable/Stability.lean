import FlowScript.Proofs.Variable.Abandoned

/-!
# Variables keep their kind

In every machine that a run reaches, a variable has a value of the kind it was
introduced with, or an error. Once it has an error, it has one until its scope is
left.
-/

set_option autoImplicit false

namespace FlowScript

open RunM

/-! ## The ledger of a machine -/

/-- The ledger at a machine before or after something that the run evaluates or
executes. A statement introduces its variable when it ends. -/
inductive Run.Holds (run : Run) : Machine → Ledger → Prop where
  | before {site : Site} {ledger : Ledger} :
      run.Introduces site ledger → Holds run site.machine ledger
  | evaluated {depth : Nat} {context : Context} {expr : Expr} {machine final : Machine}
      {outcome : Except Interruption Value} {ledger : Ledger} :
      run.Introduces ⟨depth, context, .expression expr, machine⟩ ledger →
      (evaluate depth context expr).run.run machine = (outcome, final) →
      final.scopes.depth = machine.scopes.depth → Holds run final ledger
  | executed {depth : Nat} {context : Context} {statement : Statement} {machine final : Machine}
      {ledger : Ledger} :
      run.Introduces ⟨depth, context, .statement statement, machine⟩ ledger →
      (execute depth context statement).Returns machine () final →
      Holds run final (ledger.executing statement)
  | interrupted {depth : Nat} {context : Context} {statement : Statement}
      {machine final : Machine} {interruption : Interruption} {ledger : Ledger} :
      run.Introduces ⟨depth, context, .statement statement, machine⟩ ledger →
      (execute depth context statement).run.run machine = (.error interruption, final) →
      final.scopes.depth = machine.scopes.depth → Holds run final ledger

/-- A statement that does not end makes no variable in the scopes it found. -/
theorem execute_interrupted_names {depth : Nat} {context : Context} {statement : Statement}
    {machine final : Machine} {interruption : Interruption}
    (ran : (execute depth context statement).run.run machine = (.error interruption, final))
    (same : final.scopes.depth = machine.scopes.depth) :
    final.scopes.names = machine.scopes.names := by
  cases introduced : statement.introduced? with
  | none => exact ((modest_execute depth context introduced).names machine).of_run ran same
  | some entry =>
      cases depth with
      | zero =>
          cases ran
          rfl
      | succ depth =>
          obtain ⟨prepare, location, runs, modest, -, -⟩ :=
            execute_introduces depth context introduced
          have named := modest.names machine
          unfold After at named
          rw [runs, run_bind_eq] at ran
          cases prepared : prepare.run.run machine with
          | mk outcome middle =>
              rw [prepared] at ran named
              cases outcome with
              | error =>
                  cases ran
                  exact named same
              | ok value =>
                  dsimp only at ran
                  rw [run_onScopesAt] at ran
                  split at ran
                  · cases ran
                  · cases ran
                    exact named same

theorem Run.Holds.fits {run : Run} {machine : Machine} {ledger : Ledger}
    (holds : run.Holds machine ledger) : ledger.Fits machine.scopes := by
  cases holds with
  | before introduces => exact introduces.fits
  | @evaluated depth context expr before _ outcome _ introduces ran same =>
      have steady := (evaluation_steady depth context).1 expr before
      have modest := (modest_evaluate depth context expr).names before
      exact introduces.fits.leads (steady.of_run ran) (modest.of_run ran same)
  | executed introduces returns => exact introduces.fits.executed returns
  | @interrupted depth context statement before _ _ _ introduces ran same =>
      have steady := (evaluation_steady depth context).2 statement before
      exact introduces.fits.leads (steady.of_run ran) (execute_interrupted_names ran same)

/-! ## Every machine has a ledger -/

theorem Site.Enters.depth_lt {outer inner : Site} (enters : outer.Enters inner)
    (single : ∀ statements, outer.work ≠ .sequence statements) : inner.depth < outer.depth := by
  cases enters with
  | evaluates evaluates => cases evaluates <;> exact Nat.lt_succ_self _
  | starts starts => cases starts <;> exact Nat.lt_succ_self _
  | runs runs => cases runs <;> first | exact Nat.lt_succ_self _ | exact absurd rfl (single _)
  | invokes invokes => cases invokes; exact Nat.lt_succ_self _

namespace Run

variable {run : Run} {depth : Nat} {context : Context}

theorem holds_statement {statement : Statement} {machine final : Machine}
    {outcome : Except Interruption Unit}
    (performed : run.Performs ⟨depth, context, .statement statement, machine⟩)
    (ran : (execute depth context statement).run.run machine = (outcome, final))
    (same : final.scopes.depth = machine.scopes.depth) : ∃ ledger, run.Holds final ledger := by
  obtain ⟨ledger, introduces⟩ := performed.introduces
  cases outcome with
  | ok => exact ⟨_, .executed introduces ran⟩
  | error => exact ⟨_, .interrupted introduces ran same⟩

/-- Where statements end, the last of them that was executed did. -/
theorem holds_sequence
    (statements : ∀ {statement : Statement} {machine : Machine},
      run.Performs ⟨depth, context, .statement statement, machine⟩ →
      ∃ ledger, run.Holds ((execute depth context statement).run.run machine).2 ledger)
    {sequence : List Statement} {machine : Machine}
    (performed : run.Performs ⟨depth, context, .sequence sequence, machine⟩) :
    ∃ ledger, run.Holds ((executeAll (execute depth context) sequence).run.run machine).2
      ledger := by
  induction sequence generalizing machine with
  | nil =>
      obtain ⟨ledger, introduces⟩ := performed.introduces
      exact ⟨ledger, .before introduces⟩
  | cons statement rest ih =>
      have first := statements (performed.tail (.runs .first))
      rw [executeAll_cons, run_bind_eq]
      cases ran : (execute depth context statement).run.run machine with
      | mk outcome middle =>
          rw [ran] at first
          cases outcome with
          | error => exact first
          | ok =>
              dsimp only
              rw [run_executeRest]
              split
              · next proceeds => exact ih (performed.tail (.runs (.next ran proceeds)))
              · exact first

theorem Performs.holds_final {site : Site} (performed : run.Performs site) :
    ∃ ledger, run.Holds site.final ledger := by
  obtain ⟨depth, context, work, machine⟩ := site
  induction depth using Nat.strongRecOn generalizing context work machine with
  | _ depth ih =>
      have parts : ∀ {outer inner : Site}, run.Performs outer → outer.Enters inner →
          (∀ statements, outer.work ≠ .sequence statements) → outer.depth = depth →
          ∃ ledger, run.Holds inner.final ledger :=
        fun performed enters single same =>
          ih _ (same ▸ enters.depth_lt single) _ _ _ (performed.tail enters)
      have statements : ∀ {statement : Statement} {machine : Machine},
          run.Performs ⟨depth, context, .statement statement, machine⟩ →
          ∃ ledger, run.Holds ((execute depth context statement).run.run machine).2 ledger := by
        intro statement machine performed
        have strands := execute_strands depth context statement machine
        have balances := (evaluation_balances depth context).2 statement machine
        rcases strands with ends | same | ⟨inner, enters, same⟩
        · exact holds_statement performed rfl (balances.2 ends).depth
        · exact holds_statement performed rfl same
        · rw [same]
          exact parts performed enters (by simp) rfl
      cases work with
      | expression expr =>
          have strands := evaluate_strands depth context expr machine
          have balances := (evaluation_balances depth context).1 expr machine
          obtain ⟨ledger, introduces⟩ := performed.introduces
          rcases strands with ends | same | ⟨inner, enters, same⟩
          · exact ⟨ledger, .evaluated introduces rfl (balances.2 ends).depth⟩
          · exact ⟨ledger, .evaluated introduces rfl same⟩
          · change ∃ ledger, run.Holds ((evaluate depth context expr).run.run machine).2 ledger
            rw [same]
            exact parts performed enters (by simp) rfl
      | statement statement => exact statements performed
      | sequence sequence => exact holds_sequence statements performed

theorem Reaches.holds {machine : Machine} (reached : run.Reaches machine) :
    ∃ ledger, run.Holds machine ledger := by
  obtain ⟨site, performed, rfl | rfl⟩ := reached
  · obtain ⟨ledger, introduces⟩ := performed.introduces
    exact ⟨ledger, .before introduces⟩
  · exact performed.holds_final

end Run

/-! ## Errors stay -/

/-- An error in a variable is still one later on, in all that is done while the scope
of the variable is open. -/
theorem Site.Covers.keeps_error {site : Site} {earlier later : Machine} {level : Nat}
    {name : String} {value : Value} (covered : site.Covers earlier) (alsoCovered : site.Covers later)
    (before : earlier < later) (opened : level < site.machine.scopes.depth)
    (found : earlier.scopes.valueAt? level name = some value) (error : value.isError) :
    ∃ after, later.scopes.valueAt? level name = some after ∧ after.isError := by
  rcases covered.ordered alsoCovered with leads | leads
  · obtain ⟨after, foundLater, follows⟩ := leads.follows level opened name value found
    exact ⟨after, foundLater, follows.isError error⟩
  · exact absurd leads.grows before.not_ge

/-- Every machine that a run reaches has a ledger of what was introduced. In it each
variable has a value of its kind in the ledger, or an error; and an error stays in its
variable in all that is done while the variable's scope is open. -/
theorem variables_keep_kind (run : Run) :
    (∀ machine, run.Reaches machine → ∃ ledger, run.Holds machine ledger) ∧
    (∀ machine ledger, run.Holds machine ledger →
      ∀ level name value, machine.scopes.valueAt? level name = some value →
        ∃ kind, ledger.kindAt? level name = some kind ∧ (value.kind = kind ∨ value.isError)) ∧
    (∀ site, run.Performs site → ∀ earlier later, site.Covers earlier → site.Covers later →
      earlier < later → ∀ level < site.machine.scopes.depth, ∀ name value,
        earlier.scopes.valueAt? level name = some value → value.isError →
        ∃ after, later.scopes.valueAt? level name = some after ∧ after.isError) := by
  refine ⟨fun machine reached => reached.holds, ?_, ?_⟩
  · intro machine ledger holds level name value found
    exact holds.fits.kinds level name value found
  · intro site _ earlier later covered alsoCovered before level opened name value found error
    exact covered.keeps_error alsoCovered before opened found error

/-- Assigns an error to a number and then a number again: `e : error`,
`n : integer = e` and `n = 5`. -/
def spoiledNumber : Run :=
  let name (text : String) : Identifier := ⟨text, .origin⟩
  .ofStatements
    [.declaration (name "e") (name "error") none .origin,
    .declaration (name "n") (name "integer") (some (.path ⟨name "e", [], .origin⟩)) .origin,
    .assignment ⟨name "n", [], .origin⟩ (.literal (.integer 5) .origin) .origin] 5

/-- The error stays in the number, where the last assignment fails. -/
theorem spoiledNumber_keeps_kind :
    ∃ ledger value kind, spoiledNumber.Holds spoiledNumber.root.final ledger ∧
      spoiledNumber.root.final.scopes.valueAt? 0 "n" = some value ∧ value.isError ∧
      ledger.kindAt? 0 "n" = some kind := by
  obtain ⟨ledgers, kinds, errors⟩ := variables_keep_kind spoiledNumber
  obtain ⟨machine, path, spoiled, shorter⟩ : ∃ machine,
      Relation.ReflTransGen Site.Enters spoiledNumber.root
        ⟨5, spoiledNumber.root.context, .sequence (spoiledNumber.program.script.statements.drop 2),
          machine⟩ ∧
      (machine.scopes.valueAt? 0 "n").map Value.isError = some true ∧
      machine.logs.size < spoiledNumber.root.final.logs.size :=
    ⟨_, .tail (.single (.runs (.next (.of_isSome (by decide +kernel)) (by decide +kernel))))
      (.runs (.next (.of_isSome (by decide +kernel)) (by decide +kernel))), by decide +kernel,
      by decide +kernel⟩
  have covered : spoiledNumber.root.Covers machine := ⟨_, path, .inl rfl⟩
  have ends : spoiledNumber.root.Covers spoiledNumber.root.final := ⟨_, .refl, .inr rfl⟩
  have before : machine < spoiledNumber.root.final := by
    refine lt_of_le_not_ge covered.leads_final.grows fun back => ?_
    have longer := back.logs.length_le
    simp only [Array.length_toList] at longer
    omega
  obtain ⟨value, found, error⟩ := Option.map_eq_some_iff.mp spoiled
  obtain ⟨after, foundAfter, errorAfter⟩ :=
    errors _ .refl _ _ covered ends before 0 (by decide) "n" value found error
  obtain ⟨ledger, holds⟩ := ledgers _ ⟨_, .refl, .inr rfl⟩
  obtain ⟨kind, noted, -⟩ := kinds _ ledger holds 0 "n" after foundAfter
  exact ⟨ledger, after, kind, holds, foundAfter, errorAfter, noted⟩

end FlowScript
