import FlowScript.Time.Instant

/-!
# RFC 3339 text

Instants are written in UTC with the offset `+00:00` and no, three, six or nine
digits of a fraction, whichever is the fewest that is exact. Reading accepts any
offset, a blank or a small letter where the standard has `T` and `Z`, and cuts a
fraction off behind its ninth digit.
-/

set_option autoImplicit false

namespace FlowScript

namespace Instant

/-! ## Writing -/

/-- The decimal digits of a number, filled up with zeros on the left. -/
def padded (width value : Nat) : String :=
  let digits := Nat.toDigits 10 value
  String.ofList (List.replicate (width - digits.length) '0' ++ digits)

/-- A year: four digits where they suffice, and a sign otherwise. -/
def renderYear (year : Int) : String :=
  if 0 ≤ year ∧ year ≤ 9999 then padded 4 year.toNat
  else if year < 0 then "-" ++ padded 4 year.natAbs
  else "+" ++ padded 4 year.natAbs

/-- A fraction of a second, in groups of three digits. -/
def renderFraction (nanos : Nat) : String :=
  if nanos = 0 then ""
  else if nanos % 1000000 = 0 then "." ++ padded 3 (nanos / 1000000)
  else if nanos % 1000 = 0 then "." ++ padded 6 (nanos / 1000)
  else "." ++ padded 9 nanos

def render (instant : Instant) : String :=
  let date := CalendarDate.ofDays instant.day
  let time := instant.secondOfDay
  let isLeap := nanosPerSecond ≤ instant.nanos
  let second := if isLeap then time % 60 + 1 else time % 60
  let nanos := if isLeap then instant.nanos - nanosPerSecond else instant.nanos
  renderYear date.year ++ "-" ++ padded 2 date.month ++ "-" ++ padded 2 date.day ++ "T"
    ++ padded 2 (time / 3600) ++ ":" ++ padded 2 (time / 60 % 60) ++ ":" ++ padded 2 second
    ++ renderFraction nanos ++ "+00:00"

/-! ## Reading -/

/-- Reads a number of exactly `width` digits, given the value read so far. -/
def readDigits (width value : Nat) (text : List Char) : Option (Nat × List Char) :=
  match width, text with
  | 0, rest => some (value, rest)
  | width + 1, char :: rest =>
      if char.isDigit then readDigits width (value * 10 + (char.toNat - '0'.toNat)) rest
      else none
  | _ + 1, [] => none

def readOneOf (allowed : List Char) : List Char → Option (List Char)
  | char :: rest => if allowed.contains char then some rest else none
  | [] => none

/-- Reads a fraction, if there is one, as nanoseconds. -/
def readFraction : List Char → Option (Nat × List Char)
  | '.' :: rest =>
      let digits := rest.takeWhile Char.isDigit
      let kept := digits.take 9
      if digits.isEmpty then none
      else
        let value := kept.foldl (fun value char => value * 10 + (char.toNat - '0'.toNat)) 0
        some (value * Nat.pow 10 (9 - kept.length), rest.dropWhile Char.isDigit)
  | rest => some (0, rest)

/-- Reads the offset from UTC in seconds. -/
def readOffset : List Char → Option (Int × List Char)
  | [] => none
  | char :: rest =>
      if char = 'Z' ∨ char = 'z' then some (0, rest)
      else if char = '+' ∨ char = '-' ∨ char = '\u2212' then do
        let (hours, rest) ← readDigits 2 0 rest
        let rest ← readOneOf [':'] rest
        let (minutes, rest) ← readDigits 2 0 rest
        let seconds : Int := ((hours * 60 + minutes) * 60 : Nat)
        if minutes < 60 ∧ seconds < secondsPerDay then
          pure (if char = '+' then seconds else -seconds, rest)
        else none
      else none

def read? (text : String) : Option Instant := do
  let (year, rest) ← readDigits 4 0 text.toList
  let rest ← readOneOf ['-'] rest
  let (month, rest) ← readDigits 2 0 rest
  let rest ← readOneOf ['-'] rest
  let (day, rest) ← readDigits 2 0 rest
  let rest ← readOneOf ['T', 't', ' '] rest
  let (hour, rest) ← readDigits 2 0 rest
  let rest ← readOneOf [':'] rest
  let (minute, rest) ← readDigits 2 0 rest
  let rest ← readOneOf [':'] rest
  let (second, rest) ← readDigits 2 0 rest
  let (fraction, rest) ← readFraction rest
  let (offset, rest) ← readOffset rest
  let date : CalendarDate := ⟨year, month, day⟩
  if rest.isEmpty ∧ date.isValid ∧ hour < 24 ∧ minute < 60 ∧ second ≤ 60 then
    let isLeap := second = 60
    let wholeSecond := if isLeap then 59 else second
    let nanos := if isLeap then nanosPerSecond + fraction else fraction
    let instant : Instant :=
      ⟨date.toDays * secondsPerDay + (hour * 3600 + minute * 60 + wholeSecond : Nat) - offset,
        nanos⟩
    if instant.inRange then some instant else none
  else none

end Instant

end FlowScript
