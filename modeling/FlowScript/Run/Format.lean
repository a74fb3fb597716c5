import FlowScript.Value.Basic

/-!
# Format strings

A format is literal text with holes. A hole goes from an opening brace to the
next closing brace; an opening brace that is never closed is literal, like all
that follows it. A hole without a key takes the next unnamed argument, any other
hole the argument with its key for a name.
-/

set_option autoImplicit false

namespace FlowScript.Format

inductive Piece where
  | text (chars : List Char)
  | hole (key : String)
  deriving DecidableEq, Repr

/-- Characters that count as blank around a key. -/
def isSpace (char : Char) : Bool :=
  let code := char.toNat
  (9 ≤ code && code ≤ 13) || code == 32 || code == 0x85 || code == 0xA0 || code == 0x1680
    || (0x2000 ≤ code && code ≤ 0x200A) || code == 0x2028 || code == 0x2029 || code == 0x202F
    || code == 0x205F || code == 0x3000

def trim (chars : List Char) : List Char :=
  ((chars.dropWhile isSpace).reverse.dropWhile isSpace).reverse

mutual

/-- The pieces of a format after some literal text, which is given in reverse. -/
def piecesOutside (literal : List Char) (format : List Char) : List Piece :=
  match format with
  | [] => [.text literal.reverse]
  | char :: rest =>
      if char = '\x7b' then piecesInside literal [] rest
      else piecesOutside (char :: literal) rest
termination_by structural format

/-- The pieces of a format inside a hole. The literal text before the hole and
the key so far are given in reverse. -/
def piecesInside (literal key : List Char) (format : List Char) : List Piece :=
  match format with
  | [] => [.text (literal.reverse ++ '\x7b' :: key.reverse)]
  | char :: rest =>
      if char = '\x7d' then
        .text literal.reverse :: .hole (String.ofList (trim key.reverse))
          :: piecesOutside [] rest
      else piecesInside literal (char :: key) rest
termination_by structural format

end

def pieces (format : String) : List Piece := piecesOutside [] format.toList

/-- Fills the holes from left to right. -/
def fill (store : Store) (arguments : CallArguments) :
    List Piece → List CallArgument → Except Cause String
  | [], _ => .ok ""
  | .text chars :: rest, unnamed => do
      let filled ← fill store arguments rest unnamed
      pure (String.ofList chars ++ filled)
  | .hole key :: rest, unnamed =>
      if key.isEmpty then
        match unnamed with
        | [] => .error .formatArguments
        | argument :: unnamed => do
            let filled ← fill store arguments rest unnamed
            pure (argument.value.render store ++ filled)
      else
        match arguments.named? key with
        | none => .error (.formatKey key)
        | some argument => do
            let filled ← fill store arguments rest unnamed
            pure (argument.value.render store ++ filled)

/-- The format of a call: its first argument, which must be an unnamed string. -/
def template? (store : Store) (arguments : CallArguments) : Option String :=
  match arguments.items with
  | [] => none
  | first :: _ => if first.name.isNone then store.string? first.value else none

/-- Fills the first argument, a format, with the other arguments. -/
def apply (store : Store) (arguments : CallArguments) : Except Cause String :=
  match template? store arguments with
  | none => .error .formatExpected
  | some format =>
      fill store arguments (pieces format)
        ((arguments.items.drop 1).filter fun argument => argument.name.isNone)

end FlowScript.Format
