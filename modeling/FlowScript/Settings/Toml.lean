import FlowScript.Real.Parts
import FlowScript.Source.Text
import FlowScript.Time.Calendar
import FlowScript.Word

/-!
# TOML documents

A reader for TOML 1.0. A document is first read into lines, each a table header
or a key with its value, and the lines are then put together into one table. A
key may be defined only once, and a finished table cannot be opened again.
-/

set_option autoImplicit false

namespace FlowScript.Toml

inductive Value where
  | boolean (value : Bool)
  | integer (value : Int)
  | real (value : Float)
  | text (value : String)
  | list (items : List Value)
  | table (entries : List (String × Value))

inductive Line where
  /-- `[path]` -/
  | header (path : List String)
  /-- `[[path]]` -/
  | itemHeader (path : List String)
  /-- `path = value` -/
  | entry (path : List String) (value : Value)

/-- How deeply values may be nested, and how many parts a key may have. -/
def maxDepth : Nat := 79

/-! ## Blanks and comments -/

def isBlank (char : Char) : Bool := char == ' ' || char == '\t'

def skipBlanks (input : List Char) : List Char := input.dropWhile isBlank

def isControl (char : Char) : Bool :=
  (char.toNat < 32 && char != '\t') || char.toNat == 127

/-- Skips a comment up to the end of its line. -/
def skipComment (input : List Char) : Option (List Char) :=
  match input with
  | '#' :: rest =>
      let comment := rest.takeWhile fun char => char != '\n' && char != '\r'
      if comment.any isControl then none else some (rest.drop comment.length)
  | other => some other

/-- Skips the end of a line, if the text stands at one. -/
def skipNewline? : List Char → Option (List Char)
  | '\n' :: rest => some rest
  | '\r' :: '\n' :: rest => some rest
  | _ => none

/-- Skips blanks and a comment behind something; then the line must end. -/
def skipLineEnd (input : List Char) : Option (List Char) := do
  let rest ← skipComment (skipBlanks input)
  if rest.isEmpty then some [] else skipNewline? rest

/-- Skips blanks, comments and line ends, at most so many. -/
def skipSpace : Nat → List Char → Option (List Char)
  | 0, input => some input
  | fuel + 1, input =>
      match skipBlanks input with
      | '#' :: rest => do
          let rest ← skipComment ('#' :: rest)
          if rest.isEmpty then some [] else do
            let rest ← skipNewline? rest
            skipSpace fuel rest
      | rest =>
          match skipNewline? rest with
          | some rest => skipSpace fuel rest
          | none => some rest

/-! ## Strings -/

def hexValue? (digits : List Char) : Option Nat :=
  digits.foldlM (fun value char =>
    if char.isDigit then some (value * 16 + (char.toNat - '0'.toNat))
    else if 'a' ≤ char ∧ char ≤ 'f' then some (value * 16 + (char.toNat - 'a'.toNat + 10))
    else if 'A' ≤ char ∧ char ≤ 'F' then some (value * 16 + (char.toNat - 'A'.toNat + 10))
    else none) 0

def charOfHex? (digits : List Char) : Option Char := do
  let code ← hexValue? digits
  if code < 0xD800 ∨ (0xE000 ≤ code ∧ code < 0x110000) then some (Char.ofNat code) else none

/-- The character that a short escape stands for. -/
def shortEscape? (char : Char) : Option Char :=
  match char with
  | 'b' => some '\x08'
  | 't' => some '\t'
  | 'n' => some '\n'
  | 'f' => some '\x0c'
  | 'r' => some '\r'
  | '"' => some '"'
  | '\\' => some '\\'
  | _ => none

/-- The rest of a string between double quotes; what is done is in reverse. -/
def readBasic (done : List Char) : List Char → Option (String × List Char)
  | [] => none
  | '"' :: rest => some (String.ofList done.reverse, rest)
  | '\\' :: 'u' :: a :: b :: c :: d :: rest => do
      let char ← charOfHex? [a, b, c, d]
      readBasic (char :: done) rest
  | '\\' :: 'U' :: a :: b :: c :: d :: e :: f :: g :: h :: rest => do
      let char ← charOfHex? [a, b, c, d, e, f, g, h]
      readBasic (char :: done) rest
  | '\\' :: escape :: rest => do
      let char ← shortEscape? escape
      readBasic (char :: done) rest
  | char :: rest => if isControl char then none else readBasic (char :: done) rest

/-- The rest of a string between triple double quotes. A backslash at the end of
a line drops the line end and all blank text behind it. -/
def readLongBasic (dropping : Bool) (done : List Char) : List Char → Option (String × List Char)
  | '"' :: '"' :: '"' :: '"' :: '"' :: rest =>
      some (String.ofList ('"' :: '"' :: done).reverse, rest)
  | '"' :: '"' :: '"' :: '"' :: rest => some (String.ofList ('"' :: done).reverse, rest)
  | '"' :: '"' :: '"' :: rest => some (String.ofList done.reverse, rest)
  | '\\' :: 'u' :: a :: b :: c :: d :: rest => do
      let char ← charOfHex? [a, b, c, d]
      readLongBasic false (char :: done) rest
  | '\\' :: 'U' :: a :: b :: c :: d :: e :: f :: g :: h :: rest => do
      let char ← charOfHex? [a, b, c, d, e, f, g, h]
      readLongBasic false (char :: done) rest
  | '\\' :: escape :: rest =>
      match shortEscape? escape with
      | some char => readLongBasic false (char :: done) rest
      | none =>
          let isLineEnd := (skipNewline? (skipBlanks (escape :: rest))).isSome
          if isLineEnd then readLongBasic true done rest else none
  | '\r' :: '\n' :: rest =>
      readLongBasic dropping (if dropping then done else '\n' :: done) rest
  | char :: rest =>
      if dropping ∧ (isBlank char ∨ char = '\n') then readLongBasic true done rest
      else if isControl char ∧ char ≠ '\n' then none
      else readLongBasic false (char :: done) rest
  | [] => none

/-- The rest of a string between single quotes. -/
def readLiteral (input : List Char) : Option (String × List Char) :=
  let content := input.takeWhile fun char => char != '\'' && !isControl char
  match input.drop content.length with
  | '\'' :: rest => some (String.ofList content, rest)
  | _ => none

/-- The rest of a string between triple single quotes. -/
def readLongLiteral (done : List Char) : List Char → Option (String × List Char)
  | '\'' :: '\'' :: '\'' :: '\'' :: '\'' :: rest =>
      some (String.ofList ('\'' :: '\'' :: done).reverse, rest)
  | '\'' :: '\'' :: '\'' :: '\'' :: rest => some (String.ofList ('\'' :: done).reverse, rest)
  | '\'' :: '\'' :: '\'' :: rest => some (String.ofList done.reverse, rest)
  | '\r' :: '\n' :: rest => readLongLiteral ('\n' :: done) rest
  | char :: rest =>
      if isControl char ∧ char ≠ '\n' then none else readLongLiteral (char :: done) rest
  | [] => none

/-- The text without a line end at its front. -/
def dropNewline (input : List Char) : List Char := (skipNewline? input).getD input

/-- Reads a string of any form, if the text begins with one. -/
def readString? (input : List Char) : Option (Option (String × List Char)) :=
  match input with
  | '"' :: '"' :: '"' :: rest => some (readLongBasic false [] (dropNewline rest))
  | '"' :: rest => some (readBasic [] rest)
  | '\'' :: '\'' :: '\'' :: rest => some (readLongLiteral [] (dropNewline rest))
  | '\'' :: rest => some (readLiteral rest)
  | _ => none

/-! ## Keys -/

def isKeyChar (char : Char) : Bool := char.isAlphanum || char == '_' || char == '-'

def readKeyPart (input : List Char) : Option (String × List Char) :=
  match input with
  | '"' :: rest => readBasic [] rest
  | '\'' :: rest => readLiteral rest
  | _ =>
      let part := input.takeWhile isKeyChar
      if part.isEmpty then none else some (String.ofList part, input.drop part.length)

/-- Reads the parts of a key with dots between them, at most so many. -/
def readKey : Nat → List Char → Option (List String × List Char)
  | 0, _ => none
  | fuel + 1, input => do
      let (part, rest) ← readKeyPart (skipBlanks input)
      match skipBlanks rest with
      | '.' :: rest => do
          let (parts, rest) ← readKey fuel rest
          pure (part :: parts, rest)
      | rest => pure ([part], rest)

/-! ## Numbers, dates and times -/

/-- The digits of a number written with underscores between some of them. -/
def digitsOf? (isDigit : Char → Bool) : List Char → Option (List Char)
  | [] => none
  | [digit] => if isDigit digit then some [digit] else none
  | digit :: '_' :: rest =>
      if isDigit digit then (digitsOf? isDigit rest).map (digit :: ·) else none
  | digit :: rest =>
      if isDigit digit then (digitsOf? isDigit rest).map (digit :: ·) else none

/-- The value of digits in a base of at most ten, or sixteen. -/
def valueIn (base : Nat) (digits : List Char) : Nat :=
  digits.foldl (fun value char => value * base + (hexValue? [char]).getD 0) 0

/-- A whole number without a sign, in decimal digits that begin with no zero. -/
def decimal? (text : List Char) : Option Nat := do
  let digits ← digitsOf? Char.isDigit text
  if digits.head? = some '0' ∧ digits.length > 1 then none else some (valueIn 10 digits)

/-- A whole number that fits in a signed word. -/
def wordInteger? (value : Int) : Option Value :=
  (signedOfInt? value).map fun word => .integer word.toInt

/-- An integer: decimal with a sign, or in base sixteen, eight or two. -/
def integer? (text : List Char) : Option Value :=
  match text with
  | '0' :: 'x' :: digits => do
      let digits ← digitsOf? (fun char => (hexValue? [char]).isSome) digits
      wordInteger? (valueIn 16 digits)
  | '0' :: 'o' :: digits => do
      let digits ← digitsOf? (fun char => '0' ≤ char ∧ char ≤ '7') digits
      wordInteger? (valueIn 8 digits)
  | '0' :: 'b' :: digits => do
      let digits ← digitsOf? (fun char => char == '0' || char == '1') digits
      wordInteger? (valueIn 2 digits)
  | '+' :: digits => do
      let value ← decimal? digits
      wordInteger? value
  | '-' :: digits => do
      let value ← decimal? digits
      wordInteger? (-(value : Int))
  | digits => do
      let value ← decimal? digits
      wordInteger? value

/-- A sign and what follows it. -/
def splitSign : List Char → Bool × List Char
  | '-' :: rest => (true, rest)
  | '+' :: rest => (false, rest)
  | rest => (false, rest)

/-- The power of ten behind the mark of an exponent; without a mark it is zero. -/
def power? (text : List Char) : Option Int :=
  match text with
  | [] => some 0
  | _ :: rest => do
      let (negative, digits) := splitSign rest
      let digits ← digitsOf? Char.isDigit digits
      let value : Int := valueIn 10 digits
      pure (if negative then -value else value)

/-- A real number: a whole part with a fraction, an exponent or both. A positive
number beyond the largest one is refused. -/
def real? (text : List Char) : Option Value := do
  let (negative, body) := splitSign text
  let signed := fun (value : Float) => Value.real (if negative then -value else value)
  if body = ['i', 'n', 'f'] then some (signed (1.0 / 0.0))
  else if body = ['n', 'a', 'n'] then some (signed (0.0 / 0.0))
  else do
    let isMark := fun (char : Char) => char == 'e' || char == 'E'
    let mantissa := body.takeWhile fun char => !isMark char
    let power ← power? (body.drop mantissa.length)
    let whole := mantissa.takeWhile (· != '.')
    let _ ← decimal? whole
    let wholeDigits ← digitsOf? Char.isDigit whole
    let fraction ← match mantissa.drop whole.length with
      | [] => if mantissa.length = body.length then none else some []
      | _ :: digits => digitsOf? Char.isDigit digits
    let exponent := power - fraction.length
    let magnitude := Real.ofDecimal (valueIn 10 (wholeDigits ++ fraction)) exponent
    if magnitude.isInf ∧ !negative then none else some (signed magnitude)

/-- Digits that must all be there. -/
def fixedDigits? (width : Nat) (input : List Char) : Option (Nat × List Char) :=
  let digits := input.take width
  if digits.length = width ∧ digits.all Char.isDigit then
    some (valueIn 10 digits, input.drop width)
  else none

def readDate (input : List Char) : Option (List Char) := do
  let (year, rest) ← fixedDigits? 4 input
  let rest ← if rest.head? = some '-' then some (rest.drop 1) else none
  let (month, rest) ← fixedDigits? 2 rest
  let rest ← if rest.head? = some '-' then some (rest.drop 1) else none
  let (day, rest) ← fixedDigits? 2 rest
  let date : CalendarDate := ⟨year, month, day⟩
  if date.isValid then some rest else none

def readTime (input : List Char) : Option (List Char) := do
  let (hour, rest) ← fixedDigits? 2 input
  let rest ← if rest.head? = some ':' then some (rest.drop 1) else none
  let (minute, rest) ← fixedDigits? 2 rest
  let rest ← if rest.head? = some ':' then some (rest.drop 1) else none
  let (second, rest) ← fixedDigits? 2 rest
  if hour < 24 ∧ minute < 60 ∧ second ≤ 60 then
    match rest with
    | '.' :: fraction =>
        let digits := fraction.takeWhile Char.isDigit
        if digits.isEmpty then none else some (fraction.drop digits.length)
    | _ => some rest
  else none

/-- Reads an offset from UTC, if there is one. -/
def readOffset (input : List Char) : Option (List Char) :=
  match input with
  | 'Z' :: rest | 'z' :: rest => some rest
  | '+' :: rest | '-' :: rest => do
      let (hour, rest) ← fixedDigits? 2 rest
      let rest ← if rest.head? = some ':' then some (rest.drop 1) else none
      let (minute, rest) ← fixedDigits? 2 rest
      if hour < 24 ∧ minute < 60 then some rest else none
  | rest => some rest

/-- Reads a date, a time or both, if the text begins with one. -/
def readDateTime (input : List Char) : Option (Value × List Char) := do
  let rest ← match readDate input with
    | some rest =>
        match rest with
        | mark :: time =>
            if mark = 'T' ∨ mark = 't' ∨ (mark = ' ' ∧ time.head?.any Char.isDigit) then do
              let rest ← readTime time
              readOffset rest
            else some rest
        | [] => some []
    | none => readTime input
  pure (.text (String.ofList (input.take (input.length - rest.length))), rest)

/-- Characters of numbers and of the words among the values. -/
def isTokenChar (char : Char) : Bool :=
  char.isAlphanum || char == '_' || char == '+' || char == '-' || char == '.'

def readToken (input : List Char) : Option (Value × List Char) := do
  let token := input.takeWhile isTokenChar
  let rest := input.drop token.length
  let value ←
    if token = ['t', 'r', 'u', 'e'] then some (.boolean true)
    else if token = ['f', 'a', 'l', 's', 'e'] then some (.boolean false)
    else match integer? token with
      | some value => some value
      | none => real? token
  pure (value, rest)

/-! ## Tables being put together -/

/-- How a table came to be, which decides who may add to it. -/
inductive Origin where
  /-- Opened on the way to another table. -/
  | passing
  /-- Opened by its own header. -/
  | header
  /-- Opened by a key with dots, under the header it belongs to. -/
  | dotted
  deriving DecidableEq, Repr

/-- A document while it is put together. -/
inductive Tree where
  | leaf (value : Value)
  | branch (origin : Origin) (entries : List (String × Tree))
  /-- The items of an array of tables; the last one is open. -/
  | items (done : List (List (String × Tree))) (last : List (String × Tree))

/-- Replaces the tree under a key, or adds it at the end. -/
def putTree (key : String) (tree : Tree) : List (String × Tree) → List (String × Tree)
  | [] => [(key, tree)]
  | entry :: rest => if entry.1 = key then (key, tree) :: rest else entry :: putTree key tree rest

/-- Puts a value under a key with dots, inside one table. The way may lead through
tables that no header opened, but must end in one that keys with dots opened. -/
def addValue (value : Value) : List String → List (String × Tree) →
    Option (List (String × Tree))
  | [], _ => none
  | [key], entries =>
      match entries.lookup key with
      | none => some (putTree key (.leaf value) entries)
      | some _ => none
  | key :: path, entries =>
      match entries.lookup key with
      | none => do
          let inner ← addValue value path []
          pure (putTree key (.branch .dotted inner) entries)
      | some (.branch .dotted inner) => do
          let inner ← addValue value path inner
          pure (putTree key (.branch .dotted inner) entries)
      | some (.branch .passing inner) =>
          if path.length = 1 then none else do
            let inner ← addValue value path inner
            pure (putTree key (.branch .passing inner) entries)
      | some (.items done last) =>
          if path.length = 1 then none else do
            let last ← addValue value path last
            pure (putTree key (.items done last) entries)
      | some _ => none

mutual

def Tree.toValue (tree : Tree) : Value :=
  match tree with
  | .leaf value => value
  | .branch _ entries => .table (entriesToValue entries)
  | .items done last => .list (itemsToValue done ++ [.table (entriesToValue last)])
termination_by structural tree

def entriesToValue (entries : List (String × Tree)) : List (String × Value) :=
  match entries with
  | [] => []
  | (key, tree) :: rest => (key, tree.toValue) :: entriesToValue rest
termination_by structural entries

def itemsToValue (items : List (List (String × Tree))) : List Value :=
  match items with
  | [] => []
  | entries :: rest => .table (entriesToValue entries) :: itemsToValue rest
termination_by structural items

end

/-! ## Values -/

mutual

def readValue (fuel room : Nat) (input : List Char) : Option (Value × List Char) :=
  match fuel with
  | 0 => none
  | fuel + 1 =>
      match readString? input with
      | some reading => reading.map fun (text, rest) => (.text text, rest)
      | none =>
          match input, room with
          | '[' :: _, 0 | '\x7b' :: _, 0 => none
          | '[' :: rest, room + 1 => readItems fuel room [] rest
          | '\x7b' :: rest, room + 1 =>
              match skipBlanks rest with
              | '\x7d' :: rest => some (.table [], rest)
              | rest => readPairs fuel room [] rest
          | _, _ =>
              match readDateTime input with
              | some reading => some reading
              | none => readToken input
termination_by structural fuel

/-- Reads the items of a list up to its closing bracket. -/
def readItems (fuel room : Nat) (done : List Value) (input : List Char) :
    Option (Value × List Char) :=
  match fuel with
  | 0 => none
  | fuel + 1 => do
      let input ← skipSpace input.length input
      match input with
      | ']' :: rest => some (.list done, rest)
      | _ => do
          let (item, rest) ← readValue fuel room input
          let rest ← skipSpace rest.length rest
          match rest with
          | ',' :: rest => readItems fuel room (done ++ [item]) rest
          | ']' :: rest => some (.list (done ++ [item]), rest)
          | _ => none
termination_by structural fuel

/-- Reads the entries of a table up to its closing brace. -/
def readPairs (fuel room : Nat) (done : List (String × Tree)) (input : List Char) :
    Option (Value × List Char) :=
  match fuel with
  | 0 => none
  | fuel + 1 => do
      let (path, rest) ← readKey maxDepth input
      match rest with
      | '=' :: rest => do
          let (value, rest) ← readValue fuel room (skipBlanks rest)
          let done ← addValue value path done
          match skipBlanks rest with
          | ',' :: rest => readPairs fuel room done rest
          | '\x7d' :: rest => some (.table (entriesToValue done), rest)
          | _ => none
      | _ => none
termination_by structural fuel

end

/-! ## Lines -/

def readLine (input : List Char) : Option (Line × List Char) :=
  match input with
  | '[' :: '[' :: rest => do
      let (path, rest) ← readKey maxDepth rest
      match rest with
      | ']' :: ']' :: rest => pure (.itemHeader path, rest)
      | _ => none
  | '[' :: rest => do
      let (path, rest) ← readKey maxDepth rest
      match rest with
      | ']' :: rest => pure (.header path, rest)
      | _ => none
  | _ => do
      let (path, rest) ← readKey maxDepth input
      match rest with
      | '=' :: rest => do
          let (value, rest) ← readValue (input.length + 1) maxDepth (skipBlanks rest)
          pure (.entry path value, rest)
      | _ => none

def readLines : Nat → List Char → Option (List Line)
  | 0, _ => none
  | fuel + 1, input => do
      let input ← skipSpace input.length input
      if input.isEmpty then some [] else do
        let (line, rest) ← readLine input
        let rest ← skipLineEnd rest
        let lines ← readLines fuel rest
        pure (line :: lines)

/-! ## Documents -/

/-- Opens the table that a header names. -/
def openTable (isItem : Bool) : List String → List (String × Tree) →
    Option (List (String × Tree))
  | [], _ => none
  | [key], entries =>
      match entries.lookup key, isItem with
      | none, false => some (putTree key (.branch .header []) entries)
      | none, true => some (putTree key (.items [] []) entries)
      | some (.branch .passing inner), false =>
          some (putTree key (.branch .header inner) entries)
      | some (.items done last), true => some (putTree key (.items (done ++ [last]) []) entries)
      | some _, _ => none
  | key :: path, entries =>
      match entries.lookup key with
      | none => do
          let inner ← openTable isItem path []
          pure (putTree key (.branch .passing inner) entries)
      | some (.branch origin inner) => do
          let inner ← openTable isItem path inner
          pure (putTree key (.branch origin inner) entries)
      | some (.items done last) => do
          let last ← openTable isItem path last
          pure (putTree key (.items done last) entries)
      | some (.leaf _) => none

/-- Puts a value under a key, inside the table that the last header opened. -/
def addEntry (path : List String) (value : Value) : List String → List (String × Tree) →
    Option (List (String × Tree))
  | [], entries => addValue value path entries
  | key :: table, entries =>
      match entries.lookup key with
      | some (.branch origin inner) => do
          let inner ← addEntry path value table inner
          pure (putTree key (.branch origin inner) entries)
      | some (.items done last) => do
          let last ← addEntry path value table last
          pure (putTree key (.items done last) entries)
      | _ => none

/-- Puts lines together; `table` is the path of the table that is open. -/
def assemble (table : List String) : List Line → List (String × Tree) →
    Option (List (String × Tree))
  | [], entries => some entries
  | .header path :: rest, entries => do
      let entries ← openTable false path entries
      assemble path rest entries
  | .itemHeader path :: rest, entries => do
      let entries ← openTable true path entries
      assemble path rest entries
  | .entry path value :: rest, entries => do
      let entries ← addEntry path value table entries
      assemble table rest entries

/-- Reads a document; there is none if the text is not TOML. -/
def read? (text : String) : Option (List (String × Value)) := do
  let lines ← readLines (text.length + 1) (Text.dropMark text.toList)
  let entries ← assemble [] lines []
  pure (entriesToValue entries)

end FlowScript.Toml
