import FlowScript.Program
import FlowScript.Run.Host
import FlowScript.Run.Scope
import FlowScript.Value.Json
import FlowScript.Value.Property

/-!
# The machine

The state of a running script and the computations on it. Time is a clock that
moves only while the script waits. Waiting may run into the deadline of an
enclosing `await`, which interrupts everything inside that `await`.
-/

set_option autoImplicit false

namespace FlowScript

/-- The state of a running script. -/
structure Machine where
  scopes : ScopeStack
  store : Store
  /-- Milliseconds since the script was started. -/
  now : Nat
  logs : Array LogEvent
  /-- Requests sent to the host, in order. -/
  requests : Array (Service × JsonObject)

/-- What stays the same while a part of a script runs. -/
structure Context where
  program : Program
  host : Host
  /-- How often a loop runs at most. -/
  maxLoopCount : Nat
  /-- The time at which the script was started. -/
  started : Instant
  /-- When the enclosing awaits run out, from the innermost outwards. -/
  deadlines : List Nat

/-- Why a computation ended without a value. -/
inductive Interruption where
  | failed (fault : Fault)
  /-- An enclosing `await` ran out: the one with so many others around it. -/
  | expired (level : Nat)
  /-- The computation was nested deeper than it was allowed to be. -/
  | exhausted
  deriving DecidableEq, Repr

/-- A computation of a running script. What it changed before an interruption
stays changed. -/
abbrev RunM := ExceptT Interruption (StateM Machine)

namespace RunM

def fail {α : Type} (cause : Cause) (location : Span) : RunM α :=
  throw (.failed ((Fault.unplaced cause).placedAt location))

def ofExcept {α : Type} (result : Except Cause α) (location : Span) : RunM α :=
  match result with
  | .ok value => pure value
  | .error cause => fail cause location

def getStore : RunM Store := do
  let machine ← get
  pure machine.store

def getScopes : RunM ScopeStack := do
  let machine ← get
  pure machine.scopes

/-- How many scopes are open. -/
def getDepth : RunM Nat := do
  let machine ← get
  pure machine.scopes.depth

def modifyScopes (change : ScopeStack → ScopeStack) : RunM Unit :=
  modify fun machine => { machine with scopes := change machine.scopes }

def onStore {α : Type} (action : StoreM α) : RunM α :=
  modifyGet fun machine =>
    let (result, store) := action.run machine.store
    (result, { machine with store })

/-- Runs a computation on the store; its failure shows at a place. -/
def onStoreAt {α : Type} (location : Span) (action : StoreExceptM α) : RunM α := do
  let result ← onStore action.run
  ofExcept result location

/-- Changes the scopes in a way that can fail at a place. -/
def onScopesAt (location : Span) (change : ScopeStack → Except Cause ScopeStack) :
    RunM Unit := do
  let scopes ← getScopes
  let changed ← ofExcept (change scopes) location
  modifyScopes fun _ => changed

def report (level : LogLevel) (message : String) (fields : List (String × LogValue)) :
    RunM Unit :=
  modify fun machine => { machine with logs := machine.logs.push ⟨level, message, fields⟩ }

/-- Reports events that are already made. -/
def reportAll (events : List LogEvent) : RunM Unit :=
  modify fun machine => { machine with logs := machine.logs ++ events.toArray }

def recordRequest (service : Service) (request : JsonObject) : RunM Unit :=
  modify fun machine => { machine with requests := machine.requests.push (service, request) }

/-- Ends a scope with a result for the enclosing function. -/
def setReturn (value : Value) : RunM Unit := modifyScopes (·.setReturn value)

end RunM

/-- The deadline before a time that comes first, with the number of deadlines
around it. Of equal deadlines the innermost one comes first. -/
def firstDeadline? (time : Nat) : List Nat → Option (Nat × Nat)
  | [] => none
  | deadline :: outer =>
      match firstDeadline? time outer with
      | none => if deadline < time then some (deadline, outer.length) else none
      | some (earliest, level) =>
          if deadline < time ∧ deadline ≤ earliest then some (deadline, outer.length)
          else some (earliest, level)

/-- The longest time that one wait takes: thirty years of 365 days, in
milliseconds. The bound is that of the timer a single wait has, for a `delay` as
for the latency of a delegate. The deadline of an `await` is a point on the clock
and not a wait, so it has no bound: what runs under it may wait many times. -/
def longestWait : Nat := 30 * 365 * TimeUnit.day.millis

/-- Waits for some milliseconds, but never longer than the longest wait, after which
the script goes on as if the time were over. If a deadline comes first, the clock
stops there and the `await` it belongs to is interrupted. -/
def wait (deadlines : List Nat) (millis : Nat) : RunM Unit := do
  let machine ← get
  let time := machine.now + min millis longestWait
  match firstDeadline? time deadlines with
  | none => set { machine with now := time }
  | some (deadline, level) => do
      set { machine with now := deadline }
      throw (.expired level)

/-- The shortest time an `await` waits, in milliseconds. -/
def shortestTimeout : Nat := 1

/-- Runs an action under a deadline, however far away that is. The result is `none`
when this deadline ends it; deadlines around it are passed on. -/
def withTimeout {α : Type} (context : Context) (timeout : Duration)
    (action : Context → RunM α) : RunM (Option α) := do
  let machine ← get
  let deadline := machine.now + max timeout.millis shortestTimeout
  let inner := { context with deadlines := deadline :: context.deadlines }
  tryCatch (some <$> action inner) fun interruption =>
    if interruption = .expired context.deadlines.length then pure none else throw interruption

end FlowScript
