import FlowScript.Json
import FlowScript.Run.Log
import FlowScript.Value.Kind

/-!
# The host

A host offers up to four services. A service takes the awaited request as a JSON
object and, after some time, answers with the reply or a reason why there is
none. It may remember what the host was asked before.
-/

set_option autoImplicit false

namespace FlowScript

inductive Service where
  | action
  | campaign
  | deviceInfo
  | http
  deriving DecidableEq, Repr

namespace Service

def name : Service → String
  | .action => "action"
  | .campaign => "campaign"
  | .deviceInfo => "device_info"
  | .http => "http"

end Service

/-- The service that answers a request; replies are not sent anywhere. -/
def HostKind.service? : HostKind → Option Service
  | .action => some .action
  | .campaign => some .campaign
  | .deviceInfoRequest => some .deviceInfo
  | .httpRequest => some .http
  | .actionReply | .campaignReply | .deviceInfoReply | .httpReply => none

/-- How one service treats a request. -/
structure Delegate where
  /-- What it reports when a request comes in. -/
  announce : JsonObject → List LogEvent
  /-- Milliseconds before it answers. -/
  latency : Nat
  answer : JsonObject → Except String JsonObject

/-- The services that are there. -/
structure Host where
  delegate? : Service → Option Delegate
  /-- What becomes of a service once the host was sent these requests, the last of which
  is the one it has to answer. -/
  adapted : Array (Service × JsonObject) → Delegate → Delegate := fun _ delegate => delegate

namespace Host

def none : Host where
  delegate? _ := .none

/-- A host that sends every request back after a delay. -/
def echo (latency : Nat) : Host where
  delegate? service := some {
    announce := fun request => [{
      level := .info
      message := "stub host request"
      fields := [("delegate", .text service.name),
        ("request", .text (Json.object request).compact)] }]
    latency
    answer := fun request => .ok request }

end Host

end FlowScript
