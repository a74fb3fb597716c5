/-!
# Log events

What a run reports while it goes on: a message with a level and named fields.
-/

set_option autoImplicit false

namespace FlowScript

/-- How much an event matters, from failures to single steps. -/
inductive LogLevel where
  | error
  | warn
  | info
  | debug
  | trace
  deriving DecidableEq, Repr

namespace LogLevel

def name : LogLevel → String
  | .error => "error"
  | .warn => "warn"
  | .info => "info"
  | .debug => "debug"
  | .trace => "trace"

def ofName? : String → Option LogLevel
  | "error" => some .error
  | "warn" => some .warn
  | "info" => some .info
  | "debug" => some .debug
  | "trace" => some .trace
  | _ => none

/-- How detailed a level is. -/
def detail : LogLevel → Nat
  | .error => 0
  | .warn => 1
  | .info => 2
  | .debug => 3
  | .trace => 4

end LogLevel

inductive LogValue where
  | text (value : String)
  | number (value : Int)
  deriving DecidableEq, Repr

structure LogEvent where
  level : LogLevel
  message : String
  fields : List (String × LogValue)
  deriving DecidableEq, Repr

/-- The events that are no more detailed than a level. -/
def LogEvent.upTo (level : LogLevel) (events : List LogEvent) : List LogEvent :=
  events.filter fun event => event.level.detail ≤ level.detail

end FlowScript
