import FlowScript.Word

/-!
# The parts of a real number

A real of the language is a binary64 number. This module takes one apart into
its sign and a whole number times a power of two, on which exact arithmetic is
possible, and converts between reals and 64-bit integers.
-/

set_option autoImplicit false

namespace FlowScript.Real

/-- A binary64 number taken apart. -/
inductive Parts where
  | nan
  | infinite (negative : Bool)
  /-- The number `mantissa * 2 ^ exponent`, or its negative. -/
  | finite (negative : Bool) (mantissa : Nat) (exponent : Int)
  deriving DecidableEq, Repr

/-- The leading bit of a mantissa, two to the power of 52, which is not stored
unless the number is very small. -/
def implicitBit : Nat := 0x10000000000000

/-- Takes a number apart. The exponent of every finite number is at least
-1074, and a mantissa has at most 53 bits. -/
def parts (value : Float) : Parts :=
  let bits := value.toBits.toNat
  let negative := maxSigned < bits
  let biased := bits / implicitBit % 2048
  let fraction := bits % implicitBit
  if biased = 2047 then
    if fraction = 0 then .infinite negative else .nan
  else if biased = 0 then .finite negative fraction (-1074)
  else .finite negative (implicitBit + fraction) ((biased : Int) - 1075)

def wholePart (mantissa : Nat) (exponent : Int) : Nat :=
  if 0 ≤ exponent then mantissa * Nat.pow 2 exponent.toNat
  else mantissa / Nat.pow 2 (-exponent).toNat

def isWhole (mantissa : Nat) (exponent : Int) : Bool :=
  0 ≤ exponent || mantissa % Nat.pow 2 (-exponent).toNat == 0

/-- The number with its fraction cut off, as near as 64 bits allow. What is not
a number counts as zero. -/
def toInt64 (value : Float) : Int64 :=
  match parts value with
  | .nan => 0
  | .infinite negative => if negative then Int64.minValue else Int64.maxValue
  | .finite negative mantissa exponent =>
      let whole : Int := wholePart mantissa exponent
      signedNearest (if negative then -whole else whole)

/-- The binary64 number nearest to `digits * 10 ^ power`. A power is cut off where
any number with those digits is already infinite or zero. -/
def ofDecimal (digits : Nat) (power : Int) : Float :=
  let power := max (-400 - (digits.log2 : Int)) (min power 400)
  Float.ofScientific digits (power < 0) power.natAbs

/-- The binary64 number nearest to an integer. -/
def ofInt64 (value : Int64) : Float := Float.ofInt value.toInt

/-- Order of two numbers; there is none with what is not a number. -/
def order (left right : Float) : Option Ordering :=
  if left < right then some .lt
  else if left == right then some .eq
  else if right < left then some .gt
  else none

end FlowScript.Real
