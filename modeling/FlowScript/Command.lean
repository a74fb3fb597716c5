import FlowScript.Ast.Json
import FlowScript.Run.Instance
import FlowScript.Settings.Basic
import FlowScript.Settings.EnvFile

/-!
# The command line

Four commands: check a script, print its syntax tree, run it against a host that
sends every request back, and print the settings. A command is a function of its
arguments and of the files and variables around it.
-/

set_option autoImplicit false

namespace FlowScript

inductive Task where
  | check (file : String)
  | tree (file : String)
  | run (file : String) (instanceId : Int64) (maxLoopCount : Option Nat)
  | settings
  deriving DecidableEq, Repr

/-- A command: what to do, and the settings file to use. -/
structure Command where
  task : Task
  settingsPath : Option String
  deriving DecidableEq, Repr

/-- What a command prints, how it fails and what it logs. -/
structure CommandReport where
  output : String
  error : Option String
  logs : List LogEvent
  /-- Milliseconds that a script took. -/
  elapsed : Nat

namespace Command

/-! ## Arguments -/

/-- Arguments sorted into options with their values and plain words. -/
structure Arguments where
  options : List (String × String)
  words : List String

/-- The options, all of which take a value. -/
def optionNames : List String := ["--config", "--id", "--max-loop-count"]

/-- An argument divided at its first equals sign. -/
def splitOption (argument : String) : String × Option String :=
  match argument.splitOn "=" with
  | name :: value :: more => (name, some ("=".intercalate (value :: more)))
  | _ => (argument, none)

/-- Sorts arguments. The value of an option is the next argument, or stands
behind an equals sign; behind two dashes there are only words. -/
def sortArguments : List String → Option Arguments
  | [] => some ⟨[], []⟩
  | "--" :: words => some ⟨[], words⟩
  | argument :: rest =>
      let (name, value) := splitOption argument
      if optionNames.contains name then
        match value, rest with
        | some value, rest => do
            let sorted ← sortArguments rest
            pure { sorted with options := (name, value) :: sorted.options }
        | none, value :: rest => do
            let sorted ← sortArguments rest
            pure { sorted with options := (name, value) :: sorted.options }
        | none, [] => none
      else if argument.startsWith "-" ∧ argument ≠ "-" then none
      else do
        let sorted ← sortArguments rest
        pure { sorted with words := argument :: sorted.words }

/-- The value of an option that is a whole number between two bounds. -/
def boundedOption? (options : List (String × String)) (name : String) (least most : Int) :
    Option (Option Int) :=
  match options.lookup name with
  | none => some none
  | some text =>
      match Setting.wholeNumber? text.toList with
      | some value => if least ≤ value ∧ value ≤ most then some (some value) else none
      | none => none

/-- Reads a command; there is none if the arguments make no sense. Of two settings
files the last one counts. -/
def read? (arguments : List String) : Option Command := do
  let sorted ← sortArguments arguments
  let instanceId ← boundedOption? sorted.options "--id" (-(maxSigned : Int) - 1) maxSigned
  let rounds ← boundedOption? sorted.options "--max-loop-count" 0 maxWord
  let isPlain := instanceId.isNone ∧ rounds.isNone
  let task ← match sorted.words with
    | ["check", file] => if isPlain then some (.check file) else none
    | ["ast", file] => if isPlain then some (.tree file) else none
    | ["config"] => if isPlain then some .settings else none
    | ["run", file] =>
        some (.run file (Int64.ofInt (instanceId.getD 1)) (rounds.map (·.toNat)))
    | _ => none
  pure ⟨task, sorted.options.reverse.lookup "--config"⟩

/-! ## Execution -/

def printed (output : String) : CommandReport := ⟨output, none, [], 0⟩

def failed (message : String) : CommandReport := ⟨"", some message, [], 0⟩

def readScript (surroundings : Surroundings) (file : String) : Except String String :=
  match surroundings.file? file with
  | some text => .ok text
  | none => .error ("Failed to read " ++ file)

def readProgram (surroundings : Surroundings) (file : String) : Except String Program := do
  let text ← readScript surroundings file
  Program.parse text file

def settingsRequest (command : Command) (maxLoopCount : Option Nat) : SettingsRequest :=
  ⟨command.settingsPath, Settings.defaultMarker, maxLoopCount, none⟩

/-- Runs a script with the given settings. -/
def runWith (settings : Settings) (started : Instant) (text file : String)
    (instanceId : Int64) : CommandReport :=
  let options : RunOptions := ⟨.echo settings.replyDelay, settings.maxLoopCount, started⟩
  let report := runScript options text file instanceId
  let output := match report.outcome with
    | .completed (some value) => "Result: " ++ value.render report.store ++ "\n"
    | .completed none => "Completed\n"
    | _ => ""
  ⟨output, report.outcome.message?, report.logs, report.elapsed⟩

/-- The environment with the variables of the environment file. -/
def withEnvironmentFile (surroundings : Surroundings) : Surroundings :=
  match surroundings.file? ".env" with
  | some text => { surroundings with environment := EnvFile.load surroundings.environment text }
  | none => surroundings

def execute (command : Command) (surroundings : Surroundings) (started : Instant) :
    CommandReport :=
  let surroundings := withEnvironmentFile surroundings
  match command.task with
  | .check file =>
      match readProgram surroundings file with
      | .ok _ => printed ("✓ " ++ file ++ " is valid\n")
      | .error message => failed message
  | .tree file =>
      match readProgram surroundings file with
      | .ok program => printed (program.script.toJson.pretty ++ "\n")
      | .error message => failed message
  | .run file instanceId maxLoopCount =>
      match Settings.load surroundings (command.settingsRequest maxLoopCount) with
      | .error fault => failed fault.message
      | .ok settings =>
          match readScript surroundings file with
          | .ok text => runWith settings started text file instanceId
          | .error message => failed message
  | .settings =>
      match Settings.load surroundings (command.settingsRequest none) with
      | .error fault => failed fault.message
      | .ok settings =>
          match settings.render with
          | .ok text => printed text
          | .error fault => failed fault.message

end Command

end FlowScript
