import FlowScript.Proofs.Fault.Known
import FlowScript.Proofs.Run.Site
import FlowScript.Proofs.Syntax.Placement
import FlowScript.Run.Instance

/-!
# Every failure shows in the source

A run that fails does so at the span of a node of its script, and that span is a stretch
of the source. So the report of a failure always points at a line.
-/

set_option autoImplicit false

namespace FlowScript

/-- The fault shows at the span of a node of the program, and that span is a stretch of
whole characters of the source. -/
structure Fault.ShownAt (fault : Fault) (program : Program) (span : Span) : Prop where
  place : fault.place = some span
  node : span ∈ program.script.spans
  ordered : span.start ≤ span.stop
  stop_le : span.stop ≤ program.source.byteSize
  start_boundary : ∃ before after, program.source.splitAt? span.start = some (before, after)
  stop_boundary : ∃ before after, program.source.splitAt? span.stop = some (before, after)

/-! ## The start of a run -/

theorem initialMachine_known (known : List Span) (instanceId : Int64) :
    (knownSpans known).Holds (initialMachine instanceId) where
  scopes := by
    constructor
    · have bindings : (initialMachine instanceId).scopes.values =
          Builtin.all.map Value.builtin ++ [.stored .integer 0] := rfl
      rw [bindings]
      intro value member
      rcases List.mem_append.mp member with builtin | own
      · obtain ⟨function, -, rfl⟩ := List.mem_map.mp builtin
        exact .builtin
      · rw [List.mem_singleton.mp own]
        exact .stored
    · have none : (initialMachine instanceId).scopes.slots = #[none] := rfl
      rw [none]
      nofun
  store := by
    have none : (initialMachine instanceId).store.values = [] := rfl
    intro value member
    rw [none] at member
    cases member

/-! ## The end of a run -/

theorem runProgram_shown {options : RunOptions} {depth : Nat} {program : Program}
    {instanceId : Int64} {fault : Fault}
    (failed : (runProgram options depth program instanceId).1 = .error (.failed fault)) :
    ∃ span ∈ program.script.spans, fault.place = some span := by
  let guard := knownSpans program.script.spans
  have executes := (Guard.evaluation guard depth).2 (options.context program)
  have runs : guard.Keeps (do
      executeAll (execute depth (options.context program)) program.script.statements
      let scopes ← RunM.getScopes
      pure scopes.returnValue?) fun _ => True := by
    apply Guard.Keeps.bind (.executeAll executes fun _ member => List.mem_cons_of_mem _ member)
    intro _ _
    apply Guard.Keeps.bind .getScopes
    exact fun _ _ => .pure trivial
  have ends := (runs (initialMachine instanceId) (initialMachine_known _ _)).2
  change Ends _ _ (runProgram options depth program instanceId).1 at ends
  rw [failed] at ends
  exact ends

theorem shownAt_of_failed {options : RunOptions} {source file : String} {depth : Nat}
    {program : Program} {instanceId : Int64} {fault : Fault}
    (parsed : Program.parse source file = .ok program)
    (failed : (runProgram options depth program instanceId).1 = .error (.failed fault)) :
    ∃ span, fault.ShownAt program span := by
  obtain ⟨span, node, place⟩ := runProgram_shown failed
  have contains : program.source.Contains program.script.spans := by
    unfold Program.parse at parsed
    split at parsed
    · next script read =>
        cases parsed
        exact parseScript_inside read
    · cases parsed
  have encloses := contains span node
  exact ⟨span, place, node, encloses.start_le_stop, encloses.stop_le_size,
    encloses.splitAt?_start, encloses.splitAt?_stop⟩

/-- The report of a failure, with the line of the source at the span. -/
def reportAt (program : Program) (cause : Cause) (span : Span) : String :=
  match cause with
  | .panic message => "Panic: " ++ message
  | cause => "Evaluation error: " ++ cause.message ++ "\n" ++ program.annotate span

theorem Fault.ShownAt.failureMessage_eq {fault : Fault} {program : Program} {span : Span}
    (shown : fault.ShownAt program span) :
    failureMessage program fault = reportAt program fault.cause span := by
  obtain ⟨cause, place⟩ := fault
  have placed : place = some span := shown.place
  subst placed
  cases cause <;> rfl

/-- A script that failed was read, and the last thing it logged is its failure. -/
theorem runScript_failed {options : RunOptions} {source file : String} {instanceId : Int64}
    {fault : Fault}
    (failed : (runScript options source file instanceId).outcome = .failed fault) :
    ∃ program, Program.parse source file = .ok program ∧
      (runProgram options nestingLimit program instanceId).1 = .error (.failed fault) ∧
      ∃ earlier fields, (runScript options source file instanceId).logs =
        earlier ++ [⟨.error, failureMessage program fault, fields⟩] := by
  unfold runScript at failed ⊢
  cases parsed : Program.parse source file with
  | error diagnostic =>
      rw [parsed] at failed
      cases failed
  | ok program =>
      rw [parsed] at failed
      refine ⟨program, rfl, ?_⟩
      dsimp only at failed ⊢
      cases ran : runProgram options nestingLimit program instanceId with
      | mk result machine =>
          rw [ran] at failed
          match result, failed with
          | .error (.failed other), failed =>
              cases failed
              exact ⟨rfl, machine.logs.toList, _, rfl⟩

/-- Whatever makes a run fail, it shows at a node of the script that stands in the source,
and the last thing the run logs points there. -/
theorem failures_located (options : RunOptions) (source file : String) (instanceId : Int64) :
    (∀ depth program fault, Program.parse source file = .ok program →
      (runProgram options depth program instanceId).1 = .error (.failed fault) →
        ∃ span, fault.ShownAt program span) ∧
    ∀ fault, (runScript options source file instanceId).outcome = .failed fault →
      ∃ program span, Program.parse source file = .ok program ∧ fault.ShownAt program span ∧
        ∃ earlier fields, (runScript options source file instanceId).logs =
          earlier ++ [⟨.error, reportAt program fault.cause span, fields⟩] := by
  constructor
  · exact fun _ _ _ => shownAt_of_failed
  · intro fault failed
    obtain ⟨program, parsed, ran, logged⟩ := runScript_failed failed
    obtain ⟨span, shown⟩ := shownAt_of_failed parsed ran
    rw [shown.failureMessage_eq] at logged
    exact ⟨program, span, parsed, shown, logged⟩

def RunOutcome.fault? : RunOutcome → Option Fault
  | .failed fault => some fault
  | _ => none

theorem RunOutcome.eq_failed {outcome : RunOutcome} {fault : Fault}
    (found : outcome.fault? = some fault) : outcome = .failed fault := by
  cases outcome with
  | failed => exact congrArg RunOutcome.failed (Option.some.inj found)
  | _ => cases found

/-- The second statement of this script reads a variable that is not there. -/
def missingVariable : String := "x : integer = 1;\nx = y;"

def quietOptions : RunOptions := ⟨Host.none, 10, ⟨0, 0⟩⟩

theorem missingVariable_located :
    ∃ program fault span, Program.parse missingVariable "main.flow" = .ok program ∧
      (runProgram quietOptions nestingLimit program 7).1 = .error (.failed fault) ∧
      (runScript quietOptions missingVariable "main.flow" 7).outcome = .failed fault ∧
      fault.cause = .undeclared "y" ∧ (span.start, span.stop) = (21, 22) ∧
      fault.ShownAt program span ∧
      ∃ earlier fields, (runScript quietOptions missingVariable "main.flow" 7).logs =
        earlier ++ [⟨.error, reportAt program fault.cause span, fields⟩] := by
  have failed : (runScript quietOptions missingVariable "main.flow" 7).outcome =
      .failed ⟨.undeclared "y", some ⟨21, 22, 1, 4, 1, 5⟩⟩ :=
    RunOutcome.eq_failed (by decide +kernel)
  have located := (failures_located quietOptions missingVariable "main.flow" 7).1
  obtain ⟨program, span, parsed, shown, logged⟩ :=
    (failures_located quietOptions missingVariable "main.flow" 7).2 _ failed
  obtain ⟨other, otherParsed, ran, -⟩ := runScript_failed failed
  cases parsed.symm.trans otherParsed
  obtain ⟨again, shownAgain⟩ := located nestingLimit program _ parsed ran
  cases shown.place
  cases shownAgain.place
  exact ⟨program, _, _, parsed, ran, failed, rfl, rfl, shownAgain, logged⟩

end FlowScript
