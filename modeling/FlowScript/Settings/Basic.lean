import FlowScript.Settings.Layer

/-!
# Settings

What can be set from outside: how often loops run and how long the host takes to
reply. A value comes from the last layer that has one: defaults, a file, the
environment, and values given explicitly.
-/

set_option autoImplicit false

namespace FlowScript

/-- The files and environment variables a program finds around it. -/
structure Surroundings where
  file? : String → Option String
  environment : List (String × String)

structure Settings where
  maxLoopCount : Nat
  /-- Milliseconds before the host replies. -/
  replyDelay : Nat
  deriving DecidableEq, Repr

/-- Why there are no settings, or no text of them. -/
inductive SettingsFault where
  /-- The file is missing or is no TOML document. -/
  | unloadable
  /-- A value is not usable. -/
  | invalid
  /-- A value is too large to be written. -/
  | unwritable
  deriving DecidableEq, Repr

def SettingsFault.message : SettingsFault → String
  | .unloadable => "Failed to load configuration"
  | .invalid => "Invalid configuration"
  | .unwritable => "Failed to serialize configuration"

/-- What is asked for when settings are loaded. -/
structure SettingsRequest where
  /-- A file that must exist; otherwise the default file is read if it does. -/
  path : Option String
  /-- What the names of environment variables begin with. -/
  marker : String
  maxLoopCount : Option Nat
  replyDelay : Option Nat

namespace Settings

def defaults : Settings := ⟨1000, 0⟩

def defaultFile : String := "flow.toml"

def defaultMarker : String := "FLOW"

/-- Where the number of rounds of a loop stands. -/
def loopPath : List Setting.Step := [.name "interpreter", .name "max_loop_count"]

/-- Where the delay of the host stands. -/
def delayPath : List Setting.Step := [.name "host", .name "reply_delay_ms"]

/-- A given value as a setting. Values are kept as signed words. -/
def wordSetting (value : Nat) : Setting := .integer (min value maxSigned : Nat)

/-- The text of a file, without the byte order mark that a file may begin with. The
ending `.toml` may be left out. -/
def findFile? (surroundings : Surroundings) (path : String) : Option String :=
  ((surroundings.file? path).or (surroundings.file? (path ++ ".toml"))).map fun text =>
    String.ofList (Text.dropMark text.toList)

def fileLayer (surroundings : Surroundings) (path : Option String) :
    Except SettingsFault (List (String × Setting)) :=
  match findFile? surroundings (path.getD defaultFile) with
  | some text =>
      match Toml.read? text with
      | some entries => .ok (Toml.entriesToSetting entries)
      | none => .error .unloadable
  | none => if path.isSome then .error .unloadable else .ok []

/-- Lays a given value over the others. -/
def layGiven (path : List Setting.Step) (value : Option Nat) (target : Setting) : Setting :=
  match value with
  | some value => target.layPath (wordSetting value) path
  | none => target

/-- The number under a name, or the default if there is none. -/
def numberOf (default : Nat) : Option Setting → Except SettingsFault Nat
  | none => .ok default
  | some value =>
      match value.word? with
      | some number => .ok number
      | none => .error .invalid

/-- The number under the only name of a group. The group may also be written as
the list of its values. -/
def number (default : Nat) (group name : String) (setting : Setting) :
    Except SettingsFault Nat :=
  match setting.entries.lookup group with
  | none => .ok default
  | some (.group entries) => numberOf default (entries.lookup name)
  | some (.list items) => numberOf default items.head?
  | some _ => .error .invalid

def load (surroundings : Surroundings) (request : SettingsRequest) :
    Except SettingsFault Settings := do
  let start := (Setting.group []).layPath (wordSetting defaults.maxLoopCount) loopPath
    |>.layPath (wordSetting defaults.replyDelay) delayPath
  let file ← fileLayer surroundings request.path
  let environment := Setting.ofVariables request.marker surroundings.environment
  let all := (start.layLayer file).layLayer environment
    |> layGiven loopPath request.maxLoopCount
    |> layGiven delayPath request.replyDelay
  let maxLoopCount ← number defaults.maxLoopCount "interpreter" "max_loop_count" all
  let replyDelay ← number defaults.replyDelay "host" "reply_delay_ms" all
  pure ⟨maxLoopCount, replyDelay⟩

/-- The settings as a TOML document, whose integers are signed words. -/
def render (settings : Settings) : Except SettingsFault String :=
  if settings.maxLoopCount ≤ maxSigned ∧ settings.replyDelay ≤ maxSigned then
    .ok ("[interpreter]\nmax_loop_count = " ++ toString settings.maxLoopCount
      ++ "\n\n[host]\nreply_delay_ms = " ++ toString settings.replyDelay ++ "\n")
  else .error .unwritable

end Settings

end FlowScript
