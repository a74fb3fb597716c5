import FlowScript.Real.Text

/-!
# JSON values

JSON with objects that keep the order of their members, and numbers that
remember whether they are integers. A value has a compact text on one line and
an indented text.
-/

set_option autoImplicit false

namespace FlowScript

inductive Json where
  | null
  | bool (value : Bool)
  | integer (value : Int)
  | real (value : Float)
  | string (value : String)
  | array (items : List Json)
  | object (members : List (String × Json))

/-- The members of a JSON object, in order. -/
abbrev JsonObject := List (String × Json)

namespace Json

/-- The hexadecimal digits of a control character, four of them. -/
def hexEscape (char : Char) : List Char :=
  let digits := Nat.toDigits 16 char.toNat
  '\\' :: 'u' :: List.replicate (4 - digits.length) '0' ++ digits

/-- A character inside a quoted text. -/
def escapeChar (char : Char) : List Char :=
  if char = '"' then ['\\', '"']
  else if char = '\\' then ['\\', '\\']
  else if char = '\n' then ['\\', 'n']
  else if char = '\r' then ['\\', 'r']
  else if char = '\t' then ['\\', 't']
  else if char = '\x08' then ['\\', 'b']
  else if char = '\x0c' then ['\\', 'f']
  else if char.toNat < 32 then hexEscape char
  else [char]

/-- A text between quotes, its special characters escaped. -/
def quote (text : String) : String :=
  String.ofList ('"' :: text.toList.flatMap escapeChar ++ ['"'])

def renderReal (value : Float) : String := (Real.renderJson? value).getD "null"

mutual

/-- The text on one line, without blanks. -/
def compact (json : Json) : String :=
  match json with
  | .null => "null"
  | .bool value => if value then "true" else "false"
  | .integer value => toString value
  | .real value => renderReal value
  | .string value => quote value
  | .array items => "[" ++ ",".intercalate (compactItems items) ++ "]"
  | .object members => "\x7b" ++ ",".intercalate (compactMembers members) ++ "\x7d"
termination_by structural json

def compactItems (items : List Json) : List String :=
  match items with
  | [] => []
  | item :: rest => item.compact :: compactItems rest
termination_by structural items

def compactMembers (members : List (String × Json)) : List String :=
  match members with
  | [] => []
  | (key, value) :: rest => (quote key ++ ":" ++ value.compact) :: compactMembers rest
termination_by structural members

end

/-- A line break followed by the indentation of a nesting depth. -/
def breakLine (depth : Nat) : String :=
  String.ofList ('\n' :: List.replicate (2 * depth) ' ')

/-- Items on lines of their own between two delimiters. -/
def enclose (opening closing : String) (depth : Nat) (items : List String) : String :=
  if items.isEmpty then opening ++ closing
  else opening ++ breakLine (depth + 1) ++ ("," ++ breakLine (depth + 1)).intercalate items
    ++ breakLine depth ++ closing

mutual

/-- The text with every item and member on a line of its own, indented by two
blanks for each level of nesting. -/
def indented (json : Json) (depth : Nat) : String :=
  match json with
  | .array items => enclose "[" "]" depth (indentedItems items (depth + 1))
  | .object members =>
      enclose "\x7b" "\x7d" depth (indentedMembers members (depth + 1))
  | .null => "null"
  | .bool value => if value then "true" else "false"
  | .integer value => toString value
  | .real value => renderReal value
  | .string value => quote value
termination_by structural json

def indentedItems (items : List Json) (depth : Nat) : List String :=
  match items with
  | [] => []
  | item :: rest => item.indented depth :: indentedItems rest depth
termination_by structural items

def indentedMembers (members : List (String × Json)) (depth : Nat) : List String :=
  match members with
  | [] => []
  | (key, value) :: rest =>
      (quote key ++ ": " ++ value.indented depth) :: indentedMembers rest depth
termination_by structural members

end

def pretty (json : Json) : String := json.indented 0

end Json

end FlowScript
