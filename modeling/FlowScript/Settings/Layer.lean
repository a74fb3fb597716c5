import FlowScript.Real.Parts
import FlowScript.Settings.Toml
import FlowScript.Word

/-!
# Layers of settings

Settings come in layers, each a tree of named values. A later layer is laid over
an earlier one: groups are merged, anything else is replaced. Names are compared
without regard to case, so all of them are kept in small letters. The outermost
names of a layer are paths: they lead through groups by name and through lists by
position.
-/

set_option autoImplicit false

namespace FlowScript

inductive Setting where
  /-- A place in a list that has no value yet. -/
  | nothing
  | boolean (value : Bool)
  | integer (value : Int)
  | real (value : Float)
  | text (value : String)
  | list (items : List Setting)
  | group (entries : List (String × Setting))

namespace Setting

def entries : Setting → List (String × Setting)
  | .group entries => entries
  | _ => []

def items : Setting → List Setting
  | .list items => items
  | _ => []

/-- Replaces the value under a name, or adds it at the end. -/
def putEntry (name : String) (value : Setting) :
    List (String × Setting) → List (String × Setting)
  | [] => [(name, value)]
  | entry :: rest =>
      if entry.1 = name then (name, value) :: rest else entry :: putEntry name value rest

mutual

/-- Lays a value over the one under a name. What was no group becomes one. -/
def lay (target : Setting) (name : String) (value : Setting) : Setting :=
  match value with
  | .group incoming =>
      let inner := layAll ((target.entries.lookup name).getD (.group [])) incoming
      .group (putEntry name inner target.entries)
  | .nothing => .group (putEntry name .nothing target.entries)
  | .boolean flag => .group (putEntry name (.boolean flag) target.entries)
  | .integer number => .group (putEntry name (.integer number) target.entries)
  | .real number => .group (putEntry name (.real number) target.entries)
  | .text content => .group (putEntry name (.text content) target.entries)
  | .list items => .group (putEntry name (.list items) target.entries)
termination_by structural value

/-- Lays several named values over a group, one after the other. -/
def layAll (target : Setting) (incoming : List (String × Setting)) : Setting :=
  match incoming with
  | [] => target
  | (name, value) :: rest => layAll (lay target name value) rest
termination_by structural incoming

end

/-! ## Paths -/

/-- One step of a path: to a named value of a group, or to a position of a list.
Negative positions count from the end. -/
inductive Step where
  | name (name : String)
  | position (index : Int)
  deriving DecidableEq, Repr

/-- Changes the item at a position. A list that is too short is filled up first:
behind its end, or before its front where the position counts from the end. -/
def changeItem (index : Int) (change : Setting → Setting) (items : List Setting) :
    List Setting :=
  if 0 ≤ index then
    let missing := index.toNat + 1 - items.length
    (items ++ List.replicate missing nothing).modify index.toNat change
  else
    let missing := index.natAbs - items.length
    let filled := List.replicate missing nothing ++ items
    filled.modify (filled.length - index.natAbs) change

/-- Lays a value over the one at the end of a path. What is no group where the
path names a value becomes one, and likewise for lists. -/
def layPath (target : Setting) (value : Setting) : List Step → Setting
  | [] => value
  | [.name name] => target.lay name value
  | .name name :: path =>
      let inner := ((target.entries.lookup name).getD .nothing).layPath value path
      .group (putEntry name inner target.entries)
  | .position index :: path =>
      .list (changeItem index (fun inner => inner.layPath value path) target.items)

/-- Characters of a name in a path. -/
def isNameChar (char : Char) : Bool :=
  char.isAlphanum || char == '_' || char == '-' || char == ' '

def readName (text : List Char) : Option (Step × List Char) :=
  let name := text.takeWhile isNameChar
  if name.isEmpty then none else some (.name (String.ofList name), text.drop name.length)

/-- Reads a position up to its closing bracket. Blanks may stand around it. -/
def readPosition (text : List Char) : Option (Step × List Char) := do
  let text := Toml.skipBlanks text
  let negative := text.head? = some '-'
  let text := if negative then text.drop 1 else text
  let digits := text.takeWhile Char.isDigit
  if digits.isEmpty then none
  else do
    let value : Int := Toml.valueIn 10 digits
    let index ← signedOfInt? (if negative then -value else value)
    match Toml.skipBlanks (text.drop digits.length) with
    | ']' :: rest => some (.position index.toInt, rest)
    | _ => none

/-- Reads the steps behind the first one, at most so many. -/
def readSteps : Nat → List Char → Option (List Step)
  | _, [] => some []
  | 0, _ => none
  | fuel + 1, mark :: rest => do
      let (step, rest) ←
        if mark = '.' then readName rest
        else if mark = '[' then readPosition rest
        else none
      let steps ← readSteps fuel rest
      pure (step :: steps)

/-- The path that a text stands for. A text that is no path is a single name. -/
def pathOf (text : String) : List Step :=
  let path := do
    let (first, rest) ← readName text.toList
    let steps ← readSteps rest.length rest
    pure (first :: steps)
  path.getD [.name text]

/-- Lays a layer over the layers below it. Its outermost names are paths. -/
def layLayer (target : Setting) : List (String × Setting) → Setting
  | [] => target
  | (name, value) :: rest => layLayer (target.layPath value (pathOf name)) rest

end Setting

/-! ## The file layer -/

mutual

/-- A value of a document as a setting, its names in small letters. -/
def Toml.Value.toSetting (value : Toml.Value) : Setting :=
  match value with
  | .boolean flag => .boolean flag
  | .integer number => .integer number
  | .real number => .real number
  | .text content => .text content
  | .list items => .list (Toml.listToSetting items)
  | .table entries => .group (Toml.entriesToSetting entries)
termination_by structural value

/-- The items of a list as settings. -/
def Toml.listToSetting (items : List Toml.Value) : List Setting :=
  match items with
  | [] => []
  | item :: rest => item.toSetting :: Toml.listToSetting rest
termination_by structural items

/-- The named values of a table as settings. -/
def Toml.entriesToSetting (entries : List (String × Toml.Value)) : List (String × Setting) :=
  match entries with
  | [] => []
  | (name, value) :: rest => (name.toLower, value.toSetting) :: Toml.entriesToSetting rest
termination_by structural entries

end

/-! ## The environment layer -/

namespace Setting

/-- The value of decimal digits, of which there must be at least one. -/
def digits? (text : List Char) : Option Nat :=
  if !text.isEmpty && text.all Char.isDigit then some (Toml.valueIn 10 text) else none

def wholeNumber? (text : List Char) : Option Int := do
  let (negative, digits) := Toml.splitSign text
  let value ← digits? digits
  pure (if negative then -(value : Int) else value)

/-- The power of ten behind the mark of an exponent; without a mark it is zero. -/
def exponent? : List Char → Option Int
  | [] => some 0
  | _ :: rest => wholeNumber? rest

/-- A real number: digits with or without a point and an exponent, or the name of
an infinite or undefined number. -/
def realNumber? (text : List Char) : Option Float := do
  let (negative, body) := Toml.splitSign text
  let signed := fun (value : Float) => if negative then -value else value
  let small := (String.ofList body).toLower
  if small = "inf" ∨ small = "infinity" then some (signed (1.0 / 0.0))
  else if small = "nan" then some (signed (0.0 / 0.0))
  else do
    let mantissa := body.takeWhile fun char => char != 'e' && char != 'E'
    let power ← exponent? (body.drop mantissa.length)
    let whole := mantissa.takeWhile (· != '.')
    let fraction := (mantissa.drop whole.length).drop 1
    let digits ← digits? (whole ++ fraction)
    let power := power - fraction.length
    pure (signed (Real.ofDecimal digits power))

/-- The value of an environment variable: a truth value, a whole number that fits
in a signed word, any other number, or else a text. -/
def ofVariable (text : String) : Setting :=
  if text.toLower = "true" then .boolean true
  else if text.toLower = "false" then .boolean false
  else match wholeNumber? text.toList with
    | some value =>
        match signedOfInt? value with
        | some word => .integer word.toInt
        | none => .real (Float.ofInt value)
    | none =>
        match realNumber? text.toList with
        | some value => .real value
        | none => .text text

/-- A text with another text replaced wherever it occurs. -/
def replaceAll (text old new : String) : String := new.intercalate (text.splitOn old)

/-- The layer of environment variables whose names begin with a marker. Two
underscores divide the names of a path. -/
def ofVariables (marker : String) (environment : List (String × String)) :
    List (String × Setting) :=
  let start := (marker ++ "_").toLower
  environment.filterMap fun (name, value) =>
    let name := name.toLower
    if start.toList.isPrefixOf name.toList then
      some (replaceAll (String.ofList (name.toList.drop start.length)) "__" ".",
        ofVariable value)
    else none

/-! ## Using a setting -/

/-- The whole number nearest to a real number, halves upwards, that fits in a
word. Negative numbers and what is not a number give zero. -/
def roundToWord (value : Float) : Nat :=
  match Real.parts value with
  | .nan => 0
  | .infinite negative => if negative then 0 else maxWord
  | .finite negative mantissa exponent =>
      let rounded :=
        if 0 ≤ exponent then mantissa * Nat.pow 2 exponent.toNat
        else (mantissa + Nat.pow 2 ((-exponent).toNat - 1)) / Nat.pow 2 (-exponent).toNat
      if negative then 0 else min rounded maxWord

/-- The word that a text stands for. -/
def wordOfText? (text : String) : Option Nat :=
  let small := text.toLower
  if small = "true" ∨ small = "on" ∨ small = "yes" then some 1
  else if small = "false" ∨ small = "off" ∨ small = "no" then some 0
  else do
    let digits := match text.toList with
      | '+' :: rest => rest
      | other => other
    let value ← digits? digits
    if value ≤ maxWord then some value else none

def word? : Setting → Option Nat
  | .boolean value => some (if value then 1 else 0)
  | .integer value => if 0 ≤ value ∧ value ≤ maxWord then some value.toNat else none
  | .real value => some (roundToWord value)
  | .text value => wordOfText? value
  | .nothing | .list _ | .group _ => none

end Setting

end FlowScript
