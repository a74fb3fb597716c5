import FlowScript.Real.Parts

/-!
# Shortest decimals

The fewest decimal digits that read back as a given binary64 number, and among
decimals with so few digits the one nearest to the number. The search goes from
coarse decimal grids to fine ones; on each grid only the two neighbours of the
number can lie in the interval of reals that round to it.
-/

set_option autoImplicit false

namespace FlowScript.Real

/-- The decimal number `digits * 10 ^ exponent`. -/
structure Decimal where
  digits : Nat
  exponent : Int
  deriving DecidableEq, Repr

/-- Which of two equally near decimals is taken. -/
inductive Tie where
  | up
  | toEven
  deriving DecidableEq, Repr

/-- `base ^ exponent`, for exponents that are not negative; otherwise one. -/
def upperPower (base : Nat) (exponent : Int) : Nat := Nat.pow base exponent.toNat

/-- The decimal of the grid of multiples of `10 ^ place` that reads back as
`mantissa * 2 ^ exponent`, if there is one. All numbers are compared after
multiplication by a common denominator, in quarters of a unit of the mantissa. -/
def onGrid? (tie : Tie) (mantissa : Nat) (exponent : Int) (place : Int) : Option Decimal :=
  let scale := upperPower 2 (exponent - 2) * upperPower 10 (-place)
  let step := upperPower 10 place * upperPower 2 (2 - exponent)
  let value := 4 * mantissa * scale
  let lower := (if mantissa = implicitBit ∧ exponent ≠ -1074 then 1 else 2) * scale
  let upper := 2 * scale
  let reads := fun (candidate : Nat) =>
    let position := candidate * step
    if mantissa % 2 = 0 then value ≤ position + lower ∧ position ≤ value + upper
    else value < position + lower ∧ position < value + upper
  let below := value / step
  let above := below + 1
  let downDistance := value - below * step
  let upDistance := above * step - value
  let preferAbove :=
    if upDistance < downDistance then true
    else if downDistance < upDistance then false
    else match tie with
      | .up => true
      | .toEven => below % 2 = 1
  if reads below ∧ reads above then some ⟨if preferAbove then above else below, place⟩
  else if reads below then some ⟨below, place⟩
  else if reads above then some ⟨above, place⟩
  else none

/-- Searches ever finer grids. -/
def searchGrids (tie : Tie) (mantissa : Nat) (exponent : Int) : Nat → Int → Decimal
  | 0, place => ⟨mantissa, place⟩
  | rounds + 1, place =>
      match onGrid? tie mantissa exponent place with
      | some decimal => decimal
      | none => searchGrids tie mantissa exponent rounds (place - 1)

/-- The shortest decimal for `mantissa * 2 ^ exponent`. The search starts on a
grid coarser than the number and ends on one finer than its last binary place
needs, twenty grids further down. -/
def shortest (tie : Tie) (mantissa : Nat) (exponent : Int) : Decimal :=
  if mantissa = 0 then ⟨0, 0⟩
  else
    let magnitude := ((mantissa.log2 : Int) + exponent) * 30103
    searchGrids tie mantissa exponent 24 (magnitude.fdiv 100000 + 2)

end FlowScript.Real
