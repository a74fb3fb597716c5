import FlowScript.Run.Evaluator

/-!
# Instances

An instance is one run of one script, from its source text to its outcome. Runs
share nothing: a script that cannot be read or fails ends its own run only.
-/

set_option autoImplicit false

namespace FlowScript

inductive RunOutcome where
  /-- Ran to the end, with the value of a top-level return, raise or try. -/
  | completed (value : Option Value)
  /-- The script could not be read; holds the diagnostic. -/
  | parseFailed (diagnostic : String)
  | failed (fault : Fault)
  /-- Evaluation was nested too deeply. -/
  | exhausted

namespace RunOutcome

def isCompleted : RunOutcome → Bool
  | .completed _ => true
  | _ => false

/-- The message of a run that did not complete. -/
def message? : RunOutcome → Option String
  | .completed _ => none
  | .parseFailed diagnostic => some diagnostic
  | .failed fault => some fault.message
  | .exhausted => some "evaluation nested too deeply"

end RunOutcome

/-- What a run leaves behind. -/
structure RunReport where
  outcome : RunOutcome
  store : Store
  /-- Milliseconds the run took. -/
  elapsed : Nat
  logs : List LogEvent
  requests : List (Service × JsonObject)

/-- What a run is given besides its script. -/
structure RunOptions where
  host : Host
  maxLoopCount : Nat
  /-- The time at which the run starts. -/
  started : Instant

/-- How deeply evaluation may nest. -/
def nestingLimit : Nat := 20000

/-- The scopes a script starts with: the builtin functions and the id of the
instance are variables of the outermost scope. -/
def initialScopes (idValue : Value) : ScopeStack :=
  let builtins := Builtin.all.map fun function => (function.name, Value.builtin function)
  let bindings := Dictionary.ofList (builtins ++ [("instance_id", idValue)])
  { ScopeStack.initial with current := { ScopeStack.initial.current with bindings } }

def initialMachine (instanceId : Int64) : Machine :=
  let (idValue, store) := (newScalar (.integer instanceId)).run Store.empty
  { scopes := initialScopes idValue, store, now := 0, logs := #[], requests := #[] }

def runProgram (options : RunOptions) (depth : Nat) (program : Program) (instanceId : Int64) :
    Except Interruption (Option Value) × Machine :=
  let context : Context :=
    { program
      host := options.host
      maxLoopCount := options.maxLoopCount
      started := options.started
      deadlines := [] }
  let action : RunM (Option Value) := do
    executeAll (execute depth context) program.script.statements
    let scopes ← RunM.getScopes
    pure scopes.returnValue?
  (action.run).run (initialMachine instanceId)

/-- What is logged about a fault. Only a fault without a place is shown without the
line of the source it belongs to. -/
def failureMessage (program : Program) (fault : Fault) : String :=
  match fault.cause, fault.place with
  | .panic message, _ => "Panic: " ++ message
  | cause, some span => "Evaluation error: " ++ cause.message ++ "\n" ++ program.annotate span
  | cause, none => "Evaluation error: " ++ cause.message

def runScript (options : RunOptions) (source file : String) (instanceId : Int64) : RunReport :=
  let idField := ("instance_id", LogValue.number instanceId.toInt)
  let fields := [idField, ("file_name", .text file)]
  match Program.parse source file with
  | .error diagnostic =>
      { outcome := .parseFailed diagnostic
        store := Store.empty
        elapsed := 0
        logs := [⟨.error, "Failed to parse program:\n" ++ diagnostic, fields⟩]
        requests := [] }
  | .ok program =>
      let (result, machine) := runProgram options nestingLimit program instanceId
      let (outcome, last) := match result with
        | .ok value => (RunOutcome.completed value,
            [LogEvent.mk .debug "instance completed" [idField]])
        | .error (.failed fault) => (.failed fault,
            [LogEvent.mk .error (failureMessage program fault) fields])
        | .error _ => (.exhausted, [])
      { outcome
        store := machine.store
        elapsed := machine.now
        logs := machine.logs.toList ++ last
        requests := machine.requests.toList }

end FlowScript
