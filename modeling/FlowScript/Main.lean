import FlowScript.Command
import Std.Time.DateTime.Timestamp

/-!
# The program

Reads the arguments, the environment and the files a command may need, executes
the command, waits as long as its script waited, and prints what it reports.
-/

set_option autoImplicit false

namespace FlowScript

def usage : String :=
  "Usage: flow [--config FILE] check FILE\n       flow [--config FILE] ast FILE\n"
    ++ "       flow [--config FILE] run FILE [--id ID] [--max-loop-count COUNT]\n"
    ++ "       flow [--config FILE] config"

/-- The files a command may look at. -/
def Command.files (command : Command) : List String :=
  let path := command.settingsPath.getD Settings.defaultFile
  let script := match command.task with
    | .check file | .tree file | .run file _ _ => [file]
    | .settings => []
  [".env", path, path ++ ".toml"] ++ script

def readFile? (path : String) : IO (Option String) := do
  try
    let text ← IO.FS.readFile path
    pure (some text)
  catch _ => pure none

def readVariables : IO (List (String × String)) := do
  let text := (← readFile? "/proc/self/environ").getD ""
  pure ((text.splitOn "\x00").filterMap fun line =>
    match line.splitOn "=" with
    | name :: value :: more => some (name, "=".intercalate (value :: more))
    | _ => none)

def readClock : IO Instant := do
  let time ← Std.Time.Timestamp.now
  pure (.ofNanos time.toNanosecondsSinceUnixEpoch.val)

def pause (millis : Nat) : IO Unit := do
  let longest := 1000000000
  for _ in [0:millis / longest] do
    IO.sleep (UInt32.ofNat longest)
  IO.sleep (UInt32.ofNat (millis % longest))

def LogEvent.render (event : LogEvent) : String :=
  let fields := event.fields.map fun (name, value) =>
    " " ++ name ++ "=" ++ match value with
      | .text text => text
      | .number number => toString number
  event.level.name.toUpper ++ " " ++ event.message ++ String.join fields

/-- Executes a command in the surroundings of the process. -/
def Command.perform (command : Command) : IO UInt32 := do
  let mut texts := []
  for path in command.files do
    if let some text ← readFile? path then
      texts := (path, text) :: texts
  let files := texts
  let surroundings : Surroundings := ⟨fun path => files.lookup path, ← readVariables⟩
  let report := command.execute surroundings (← readClock)
  pause report.elapsed
  for event in LogEvent.upTo .info report.logs do
    IO.eprintln event.render
  IO.print report.output
  match report.error with
  | some message => do
      IO.eprintln ("Error: " ++ message)
      pure 1
  | none => pure 0

end FlowScript

def main (arguments : List String) : IO UInt32 :=
  match FlowScript.Command.read? arguments with
  | some command => command.perform
  | none => do
      IO.eprintln FlowScript.usage
      pure 2
