/-!
# Kinds of values

Every value has a kind, and a kind has the name that scripts use for it. Kinds
that keep their contents in a storage cell are told apart from those that do not.
-/

set_option autoImplicit false

namespace FlowScript

/-- Dictionary-shaped kinds exchanged with the host. -/
inductive HostKind where
  | action
  | actionReply
  | campaign
  | campaignReply
  | deviceInfoRequest
  | deviceInfoReply
  | httpRequest
  | httpReply
  deriving DecidableEq, Repr

namespace HostKind

def all : List HostKind :=
  [.action, .actionReply, .campaign, .campaignReply, .deviceInfoRequest, .deviceInfoReply,
    .httpRequest, .httpReply]

def name : HostKind → String
  | .action => "action"
  | .actionReply => "action_reply"
  | .campaign => "campaign"
  | .campaignReply => "campaign_reply"
  | .deviceInfoRequest => "device_info_request"
  | .deviceInfoReply => "device_info_reply"
  | .httpRequest => "http_request"
  | .httpReply => "http_reply"

def ofName? (name : String) : Option HostKind := all.find? (·.name == name)

/-- The kind a request is answered with; a reply is not answered. -/
def reply? : HostKind → Option HostKind
  | .action => some .actionReply
  | .campaign => some .campaignReply
  | .deviceInfoRequest => some .deviceInfoReply
  | .httpRequest => some .httpReply
  | .actionReply | .campaignReply | .deviceInfoReply | .httpReply => none

end HostKind

/-- Kinds whose values live in a storage cell. -/
inductive StoredKind where
  | boolean
  | integer
  | real
  | string
  | duration
  | timePoint
  | array
  | dictionary
  | host (kind : HostKind)
  deriving DecidableEq, Repr

namespace StoredKind

def name : StoredKind → String
  | .boolean => "boolean"
  | .integer => "integer"
  | .real => "real"
  | .string => "string"
  | .duration => "duration"
  | .timePoint => "time_point"
  | .array => "array"
  | .dictionary => "dictionary"
  | .host kind => kind.name

def isDictionary : StoredKind → Bool
  | .dictionary | .host _ => true
  | _ => false

end StoredKind

inductive Kind where
  | error
  | void
  | stored (kind : StoredKind)
  | memberFunction
  | freeFunction
  | workflow
  | workflowInvocation
  deriving DecidableEq, Repr

namespace Kind

def name : Kind → String
  | .error => "error"
  | .void => "void"
  | .stored kind => kind.name
  | .memberFunction => "member_function"
  | .freeFunction => "free_function"
  | .workflow => "workflow"
  | .workflowInvocation => "workflow_invocation"

def all : List Kind :=
  [.error, .void, .stored .boolean, .stored .integer, .stored .real, .stored .string,
    .stored .duration, .stored .timePoint, .stored .array, .stored .dictionary,
    .memberFunction, .freeFunction, .workflow, .workflowInvocation]
    ++ HostKind.all.map fun kind => .stored (.host kind)

def ofName? (name : String) : Option Kind := all.find? (·.name == name)

theorem ofName?_name (kind : Kind) : ofName? kind.name = some kind := by
  cases kind with
  | stored kind =>
      cases kind with
      | host kind => cases kind <;> rfl
      | _ => rfl
  | _ => rfl

end Kind

/-- Functions that are looked up on a value. -/
inductive MemberFunction where
  | push
  | insert
  deriving DecidableEq, Repr

namespace MemberFunction

def name : MemberFunction → String
  | .push => "push"
  | .insert => "insert"

end MemberFunction

/-- Functions that every script can call. -/
inductive Builtin where
  | print
  | println
  | panic
  | strFormat
  deriving DecidableEq, Repr

namespace Builtin

def name : Builtin → String
  | .print => "print"
  | .println => "println"
  | .panic => "panic"
  | .strFormat => "str_format"

def all : List Builtin := [.print, .println, .panic, .strFormat]

end Builtin

namespace Kind

/-- Properties that every value of the kind has. -/
def properties : Kind → List String
  | .error => ["message"]
  | .stored .string | .stored .array | .stored .dictionary | .stored (.host _) => ["size"]
  | _ => []

/-- Functions that every value of the kind has. -/
def members : Kind → List MemberFunction
  | .stored .array => [.push]
  | .stored .dictionary | .stored (.host _) => [.insert]
  | _ => []

end Kind

end FlowScript
