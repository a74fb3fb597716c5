import FlowScript.Word

/-!
# Durations

A duration is a count of one unit. Counts are 64-bit words, so arithmetic is
done on natural numbers and reports a result that does not fit; the length in
milliseconds stops at the largest word instead.
-/

set_option autoImplicit false

namespace FlowScript

/-- The units a duration can be counted in, from the finest to the coarsest. -/
inductive TimeUnit where
  | ms
  | sec
  | min
  | day
  | week
  | month
  deriving DecidableEq, Repr

namespace TimeUnit

def name : TimeUnit → String
  | .ms => "ms"
  | .sec => "sec"
  | .min => "min"
  | .day => "day"
  | .week => "week"
  | .month => "month"

/-- The unit a written suffix stands for. Minutes have two spellings. -/
def ofSuffix? : String → Option TimeUnit
  | "ms" => some .ms
  | "sec" => some .sec
  | "min" => some .min
  | "mn" => some .min
  | "day" => some .day
  | "week" => some .week
  | "month" => some .month
  | _ => none

/-- Length of one unit in milliseconds. A month counts as thirty days. -/
def millis : TimeUnit → Nat
  | .ms => 1
  | .sec => 1000
  | .min => 60000
  | .day => 86400000
  | .week => 7 * 86400000
  | .month => 30 * 86400000

def finer (left right : TimeUnit) : TimeUnit :=
  if left.millis ≤ right.millis then left else right

theorem millis_pos (unit : TimeUnit) : 0 < unit.millis := by
  cases unit <;> decide

theorem ofSuffix?_name (unit : TimeUnit) : ofSuffix? unit.name = some unit := by
  cases unit <;> rfl

end TimeUnit

/-- A count of one unit of time. -/
structure Duration where
  count : UInt64
  unit : TimeUnit
  deriving DecidableEq, Repr

namespace Duration

def exactMillis (duration : Duration) : Nat :=
  duration.count.toNat * duration.unit.millis

/-- The length in milliseconds, at most the largest word. -/
def millis (duration : Duration) : Nat :=
  min duration.exactMillis maxWord

def render (duration : Duration) : String :=
  toString duration.count.toNat ++ duration.unit.name

inductive Fault where
  | negative
  | overflow
  | divisionByZero
  deriving DecidableEq, Repr

/-- The unit a sum or difference is counted in: the finer of the two, or
milliseconds when that unit does not divide both lengths. -/
def commonUnit (left right : Duration) : TimeUnit :=
  let finer := left.unit.finer right.unit
  if left.millis % finer.millis = 0 ∧ right.millis % finer.millis = 0 then finer else .ms

/-- The duration of so many units, when the count fits. -/
def ofCount? (unit : TimeUnit) (count : Nat) : Option Duration :=
  (wordOfNat? count).map fun count => ⟨count, unit⟩

/-- The sum. A count that does not fit is reported as a negative duration. -/
def add (left right : Duration) : Except Fault Duration :=
  let unit := left.commonUnit right
  match ofCount? unit (left.millis / unit.millis + right.millis / unit.millis) with
  | some result => .ok result
  | none => .error .negative

def sub (left right : Duration) : Except Fault Duration :=
  let unit := left.commonUnit right
  let minuend := left.millis / unit.millis
  let subtrahend := right.millis / unit.millis
  if minuend < subtrahend then .error .negative
  else match ofCount? unit (minuend - subtrahend) with
    | some result => .ok result
    | none => .error .negative

def scale (duration : Duration) (factor : Int) : Except Fault Duration :=
  if factor < 0 then .error .negative
  else match ofCount? duration.unit (duration.count.toNat * factor.toNat) with
    | some result => .ok result
    | none => .error .overflow

/-- The duration divided by a whole number. The unit is kept when it divides
evenly; otherwise the quotient is counted in milliseconds. -/
def split (duration : Duration) (divisor : Int) : Except Fault Duration :=
  if divisor < 0 then .error .negative
  else if divisor = 0 then .error .divisionByZero
  else
    let divisor := divisor.toNat
    if duration.count.toNat % divisor = 0 then
      .ok ⟨UInt64.ofNat (duration.count.toNat / divisor), duration.unit⟩
    else .ok ⟨UInt64.ofNat (duration.millis / divisor), .ms⟩

/-- The duration of a whole number of milliseconds. -/
def ofMillis (millis : Int) : Except Fault Duration :=
  if millis < 0 then .error .negative
  else match ofCount? .ms millis.toNat with
    | some result => .ok result
    | none => .error .negative

def order (left right : Duration) : Ordering :=
  compare left.millis right.millis

end Duration

end FlowScript
