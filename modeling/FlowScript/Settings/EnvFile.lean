import FlowScript.Source.Text

/-!
# Environment files

A file of lines `NAME=value` that adds to the environment without replacing
anything in it. Values may be quoted, hold escapes, and refer to other variables;
a quoted value may go on over several lines. A line that cannot be read ends the
file.
-/

set_option autoImplicit false

namespace FlowScript.EnvFile

/-- Variables and their values, the ones set first in front. -/
abbrev Variables := List (String × String)

def isBlank (char : Char) : Bool := char == ' ' || char == '\t'

def isNameChar (char : Char) : Bool := char.isAlphanum || char == '_' || char == '.'

/-- Code points of white space, as closed ranges. -/
def spaceRanges : List (Nat × Nat) :=
  [(0x09, 0x0D), (0x20, 0x20), (0x85, 0x85), (0xA0, 0xA0), (0x1680, 0x1680), (0x2000, 0x200A),
    (0x2028, 0x2029), (0x202F, 0x202F), (0x205F, 0x205F), (0x3000, 0x3000)]

/-- White space of any script, line ends included. -/
def isSpace (char : Char) : Bool :=
  spaceRanges.any fun range => range.1 ≤ char.toNat && char.toNat ≤ range.2

/-- How far the value of a line has been read. -/
inductive Place where
  /-- Outside of quotes. -/
  | plain
  /-- Between single quotes, where nothing is special. -/
  | singleQuoted
  /-- Between double quotes. -/
  | doubleQuoted
  /-- Behind the value, where only blanks and a comment may follow. -/
  | behind
  deriving DecidableEq, Repr

/-- The reading of a value: its characters so far in reverse, the place, whether
the last character was a backslash, and the name of a variable being read, with
whether that name is between braces. -/
structure Progress where
  done : List Char
  place : Place
  escaped : Bool
  reference : Option (List Char × Bool)

/-- Appends the value of a variable; one that is not set is empty. -/
def substitute (environment : Variables) (done name : List Char) : List Char :=
  ((environment.lookup (String.ofList name.reverse)).getD "").toList.reverse ++ done

/-- The character that an escape stands for. -/
def escape? (char : Char) : Option Char :=
  if char = '\\' ∨ char = '\'' ∨ char = '"' ∨ char = '$' ∨ char = ' ' then some char
  else if char = 'n' then some '\n'
  else none

/-- Reads one character outside of escapes, single quotes and references. -/
def readPlain (progress : Progress) (char : Char) : Progress :=
  if char = '$' then { progress with reference := some ([], false) }
  else if progress.place = .doubleQuoted then
    if char = '"' then { progress with place := .plain }
    else if char = '\\' then { progress with escaped := true }
    else { progress with done := char :: progress.done }
  else if char = '\'' then { progress with place := .singleQuoted }
  else if char = '"' then { progress with place := .doubleQuoted }
  else if char = '\\' then { progress with escaped := true }
  else if isBlank char then { progress with place := .behind }
  else { progress with done := char :: progress.done }

/-- Reads one character while the name of a variable is being read. -/
def readReference (environment : Variables) (progress : Progress) (name : List Char)
    (braced : Bool) (char : Char) : Progress :=
  if char.isAlphanum then { progress with reference := some (char :: name, braced) }
  else if braced then
    if char = '\x7d' then
      { progress with done := substitute environment progress.done name, reference := none }
    else { progress with reference := some (char :: name, braced) }
  else if char = '\x7b' ∧ name.isEmpty then { progress with reference := some ([], true) }
  else
    let done := substitute environment progress.done name
    if char = '$' then { progress with done, reference := some ([], false) }
    else { progress with done := char :: done, reference := none }

def readValue (environment : Variables) (progress : Progress) :
    List Char → Option Progress
  | [] => some progress
  | char :: rest =>
      if progress.place = .behind then
        if isBlank char then readValue environment progress rest
        else if char = '#' then some progress
        else none
      else if progress.escaped then
        match escape? char with
        | some plain =>
            readValue environment
              { progress with done := plain :: progress.done, escaped := false } rest
        | none => none
      else if progress.place = .singleQuoted then
        if char = '\'' then readValue environment { progress with place := .plain } rest
        else readValue environment { progress with done := char :: progress.done } rest
      else
        match progress.reference with
        | some (name, braced) =>
            readValue environment (readReference environment progress name braced char) rest
        | none => readValue environment (readPlain progress char) rest

/-- The value at the end of a line. -/
def value? (environment : Variables) (text : List Char) : Option String := do
  let progress ← readValue environment ⟨[], .plain, false, none⟩ text
  if progress.place = .singleQuoted ∨ progress.place = .doubleQuoted then none
  else match progress.reference with
    | some (_, true) => none
    | some (name, false) =>
        some (String.ofList (substitute environment progress.done name).reverse)
    | none => some (String.ofList progress.done.reverse)

/-- The name at the front of a text, and the rest behind blanks. -/
def name? (text : List Char) : Option (String × List Char) :=
  match text with
  | first :: _ =>
      if first.isAlpha || first == '_' then
        let name := text.takeWhile isNameChar
        some (String.ofList name, (text.drop name.length).dropWhile isSpace)
      else none
  | [] => none

/-- The text behind an equals sign and blanks. -/
def behindEquals? : List Char → Option (List Char)
  | '=' :: rest => some (rest.dropWhile isSpace)
  | _ => none

inductive Line where
  | blank
  | variable (name value : String)

def trimEnd (text : List Char) : List Char := (text.reverse.dropWhile isSpace).reverse

def readLine (environment : Variables) (line : List Char) : Option Line := do
  let text := (trimEnd line).dropWhile isSpace
  if text.isEmpty ∨ text.head? = some '#' then some .blank
  else do
    let (name, rest) ← name? text
    let (name, rest) ← match behindEquals? rest with
      | some rest => some (name, rest)
      | none =>
          if name = "export" then do
            let (name, rest) ← name? rest
            let rest ← behindEquals? rest
            pure (name, rest)
          else none
    if rest.isEmpty ∨ rest.head? = some '#' then some (.variable name "")
    else do
      let value ← value? environment rest
      pure (.variable name value)

/-! ## Lines of a file -/

/-- Where the end of some text leaves the reader. -/
inductive Ending where
  /-- Outside of quotes; here a line may end. -/
  | closed
  /-- Outside of quotes, behind a blank. -/
  | spaced
  /-- Outside of quotes, behind a backslash. -/
  | escaped
  /-- Inside quotes of the given kind, perhaps behind a backslash. -/
  | quoted (quote : Char) (escaped : Bool)
  deriving DecidableEq, Repr

/-- The ending one character further outside of quotes and escapes. -/
def Ending.step (char : Char) : Ending :=
  if char = '\\' then .escaped
  else if char = '"' ∨ char = '\'' then .quoted char false
  else .closed

/-- Follows quotes through a text. A comment, which begins behind a blank, cuts
the text off; the answer is the text before it and, unless there was one, the
ending. -/
def follow (ending : Ending) (done : List Char) : List Char → List Char × Option Ending
  | [] => (done.reverse, some ending)
  | char :: rest =>
      match ending with
      | .spaced =>
          if char = '#' then (done.reverse, none)
          else follow (.step char) (char :: done) rest
      | .escaped => follow .closed (char :: done) rest
      | .closed =>
          if isSpace char ∧ char ≠ '\n' ∧ char ≠ '\r' then follow .spaced (char :: done) rest
          else follow (.step char) (char :: done) rest
      | .quoted quote true => follow (.quoted quote false) (char :: done) rest
      | .quoted quote false =>
          if char = '\\' then follow (.quoted quote true) (char :: done) rest
          else if char = quote then follow .closed (char :: done) rest
          else follow (.quoted quote false) (char :: done) rest

def linesOf (line : List Char) : List Char → List (List Char)
  | [] => if line.isEmpty then [] else [line.reverse]
  | char :: rest =>
      if char = '\n' then (char :: line).reverse :: linesOf [] rest
      else linesOf (char :: line) rest

/-- Adds the variable of a line unless it is set already. There is no answer for
a line that cannot be read. -/
def addLine (environment : Variables) (line : List Char) : Option Variables := do
  match ← readLine environment line with
  | .blank => pure environment
  | .variable name value =>
      if (environment.lookup name).isSome then pure environment
      else pure (environment ++ [(name, value)])

/-- Reads lines and adds the variables that are not set yet. A line goes on in the
next one while a quote is open; `pending` is what has been read of it. -/
def readLines (environment : Variables) (ending : Ending) (pending : List Char) :
    List (List Char) → Variables
  | [] => environment
  | line :: rest =>
      if ((pending ++ line).dropWhile isSpace).head? = some '#' then
        readLines environment .closed [] rest
      else
        match follow ending [] line with
        | (text, some .closed) | (text, none) =>
            match addLine environment (pending ++ text) with
            | some environment => readLines environment .closed [] rest
            | none => environment
        | (text, some ending) => readLines environment ending (pending ++ text) rest

/-- The environment with the variables of a file added to it. -/
def load (environment : Variables) (text : String) : Variables :=
  readLines environment .closed [] (linesOf [] (Text.dropMark text.toList))

end FlowScript.EnvFile
