import FlowScript.Source.Span

/-!
# Positions in a source text

A source text is a list of characters, and a position in it is a byte offset of
its UTF-8 form. This module finds the line and column of an offset, cuts out
the text between two offsets, and renders the diagnostic that points at one.
-/

set_option autoImplicit false

namespace FlowScript

abbrev Text := List Char

namespace Text

/-- Number of bytes of the text's UTF-8 form. -/
def byteSize (text : Text) : Nat :=
  text.foldl (fun total char => total + char.utf8Size) 0

/-- The text without a byte order mark at its front. -/
def dropMark : Text → Text
  | '\ufeff' :: rest => rest
  | other => other

/-- Splits the text at a byte offset. There is no split past the end or inside
a character. -/
def splitAt? : Text → Nat → Option (Text × Text)
  | text, 0 => some ([], text)
  | [], _ + 1 => none
  | char :: rest, offset =>
      if offset < char.utf8Size then none
      else (splitAt? rest (offset - char.utf8Size)).map
        fun (before, after) => (char :: before, after)

/-- The text between two byte offsets, when both are boundaries in order. -/
def slice? (text : Text) (start stop : Nat) : Option Text :=
  if start ≤ stop then do
    let (_, after) ← splitAt? text start
    let (inside, _) ← splitAt? after (stop - start)
    pure inside
  else none

/-- The text between two byte offsets; a range that is no stretch of whole
characters gives the empty text. -/
def slice (text : Text) (start stop : Nat) : String :=
  String.ofList ((slice? text start stop).getD [])

/-- Line and column reached from a given line and column after some bytes. -/
def advance (line column : Nat) : Text → Nat → Nat × Nat
  | [], _ => (line, column)
  | char :: rest, offset =>
      if offset < char.utf8Size then (line, if offset = 0 then column else 0)
      else if char = '\n' then advance (line + 1) 0 rest (offset - char.utf8Size)
      else advance line (column + 1) rest (offset - char.utf8Size)

/-- Line and column of a byte offset. An offset past the end counts as the end. -/
def lineColumn (text : Text) (offset : Nat) : Nat × Nat :=
  advance 0 0 text offset

/-- Line and column reached from a given line and column at the end of a text. A
line ends at a line feed, or at a carriage return and a line feed together. -/
def finish (line column : Nat) : Text → Nat × Nat
  | [] => (line, column)
  | '\r' :: '\n' :: rest => finish (line + 1) 1 rest
  | '\n' :: rest => finish (line + 1) 1 rest
  | _ :: rest => finish line (column + 1) rest

/-- Line and column of a byte offset, both counted from one, as the matcher tells
them: it goes through the text before the offset. -/
def matcherPosition (text : Text) (offset : Nat) : Nat × Nat :=
  finish 1 1 ((splitAt? text offset).getD (text, [])).1

def span (text : Text) (start stop : Nat) : Span :=
  let opening := text.lineColumn start
  let closing := text.lineColumn stop
  { start, stop
    startLine := opening.1
    startColumn := opening.2
    stopLine := closing.1
    stopColumn := closing.2 }

def code (text : Text) (span : Span) : String :=
  text.slice span.start span.stop

def lastLine (text : Text) : Text :=
  (text.reverse.takeWhile (· ≠ '\n')).reverse

def firstLine (text : Text) : Text :=
  text.takeWhile (· ≠ '\n')

def dropTrailingReturns (text : Text) : Text :=
  (text.reverse.dropWhile (· = '\r')).reverse

/-- The blanks that bring a caret under the end of `before`. A tab stays a tab,
so that the caret lines up with the echoed line. -/
def caretPadding (before : Text) : Text :=
  before.map fun char => if char = '\t' then '\t' else ' '

/-- The diagnostic for an offset: the file and line, the source line itself, and
a caret below the character at the offset. -/
def annotate (text : Text) (file : String) (offset : Nat) : String :=
  let offset := min offset text.byteSize
  let (before, after) := (splitAt? text offset).getD (text, [])
  let opening := before.lastLine
  let line := (opening ++ after.firstLine).dropTrailingReturns
  "In file " ++ file ++ ", line " ++ toString ((text.lineColumn offset).1 + 1) ++ ":\n"
    ++ String.ofList line ++ "\n" ++ String.ofList opening.caretPadding ++ "^_"

end Text

end FlowScript
