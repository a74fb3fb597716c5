import FlowScript.Time.Calendar
import FlowScript.Time.Duration

/-!
# Instants

A point in time: whole seconds since 1970-01-01T00:00:00Z and nanoseconds into
that second. A leap second is the second before it with a nanosecond count
beyond 999 999 999. Instants are read from and written as RFC 3339 text.
-/

set_option autoImplicit false

namespace FlowScript

/-- A point in time. Seconds come first, so that the order of the fields is the
order in time. -/
structure Instant where
  seconds : Int
  nanos : Nat
  deriving DecidableEq, Repr

namespace Instant

def nanosPerSecond : Nat := 1000000000

def secondsPerDay : Nat := 86400

/-- The day an instant falls on, counted from 1970-01-01. -/
def day (instant : Instant) : Int := instant.seconds.fdiv secondsPerDay

/-- The second of its day an instant falls in. -/
def secondOfDay (instant : Instant) : Nat := (instant.seconds.fmod secondsPerDay).toNat

def firstDay : Int := CalendarDate.toDays ⟨-262143, 1, 1⟩

def lastDay : Int := CalendarDate.toDays ⟨262142, 12, 31⟩

def inRange (instant : Instant) : Bool :=
  firstDay ≤ instant.day && instant.day ≤ lastDay

def order (left right : Instant) : Ordering :=
  (compare left.seconds right.seconds).then (compare left.nanos right.nanos)

/-- The instant so many nanoseconds after 1970-01-01T00:00:00Z. -/
def ofNanos (nanos : Int) : Instant :=
  ⟨nanos.fdiv nanosPerSecond, (nanos.fmod nanosPerSecond).toNat⟩

/-- Nanoseconds since 1970-01-01T00:00:00Z, a leap second counted as the
second before it running on. -/
def toNanos (instant : Instant) : Int :=
  instant.seconds * nanosPerSecond + instant.nanos

/-- The instant `millis` milliseconds away, when it is in range. A move that
leaves a leap second starts from the neighbouring ordinary second. -/
def shift (instant : Instant) (millis : Int) : Option Instant :=
  let wholeSeconds := millis.tdiv 1000
  let nanos := millis.tmod 1000 * 1000000
  let moved :=
    if instant.nanos < nanosPerSecond then
      ofNanos (instant.toNanos + millis * 1000000)
    else if wholeSeconds > 0 ∨ (nanos > 0 ∧ instant.nanos + nanos ≥ 2 * nanosPerSecond) then
      ofNanos (instant.toNanos - nanosPerSecond + millis * 1000000)
    else if wholeSeconds < 0 then
      ofNanos (instant.toNanos + millis * 1000000)
    else ⟨instant.seconds, (instant.nanos + nanos).toNat⟩
  if moved.inRange then some moved else none

/-- Why a shifted instant does not exist. -/
inductive Fault where
  /-- The duration is longer than any shift. -/
  | tooLong
  /-- The shifted instant lies outside the calendar. -/
  | outOfRange
  deriving DecidableEq, Repr

/-- The length of a shift in milliseconds, which is a signed word. -/
def shiftLength (duration : Duration) : Except Fault Int :=
  if duration.millis ≤ maxSigned then .ok duration.millis else .error .tooLong

def add (instant : Instant) (duration : Duration) : Except Fault Instant := do
  let millis ← shiftLength duration
  match instant.shift millis with
  | some moved => pure moved
  | none => throw .outOfRange

def sub (instant : Instant) (duration : Duration) : Except Fault Instant := do
  let millis ← shiftLength duration
  match instant.shift (-millis) with
  | some moved => pure moved
  | none => throw .outOfRange

/-- Milliseconds from one instant to another, fractions cut off. A leap second
between two times of day is counted. -/
def millisSince (later earlier : Instant) : Int :=
  let leap : Int :=
    if later.secondOfDay > earlier.secondOfDay ∧ earlier.nanos ≥ nanosPerSecond then 1
    else if later.secondOfDay < earlier.secondOfDay ∧ later.nanos ≥ nanosPerSecond then -1
    else 0
  (later.toNanos - earlier.toNanos + leap * nanosPerSecond).tdiv 1000000

end Instant

end FlowScript
