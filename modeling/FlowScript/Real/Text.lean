import FlowScript.Real.Shortest

/-!
# Texts of real numbers

Two layouts of the shortest decimal. Scripts print a number without an exponent,
and a whole number below 10^15 with one decimal place. JSON switches to an
exponent for numbers from 10^16 on and below 10^-5, and always shows that a
number is no integer.
-/

set_option autoImplicit false

namespace FlowScript.Real

def digitsOf (value : Nat) : List Char := Nat.toDigits 10 value

def zeros (count : Nat) : List Char := List.replicate count '0'

/-- A decimal without an exponent. -/
def positional (decimal : Decimal) : List Char :=
  let digits := digitsOf decimal.digits
  if 0 ≤ decimal.exponent then digits ++ zeros decimal.exponent.toNat
  else
    let places := (-decimal.exponent).toNat
    if places < digits.length then
      digits.take (digits.length - places) ++ '.' :: digits.drop (digits.length - places)
    else '0' :: '.' :: zeros (places - digits.length) ++ digits

/-- A decimal as its leading digit, the other digits, and a power of ten, which
always has a sign. -/
def scientific (decimal : Decimal) : List Char :=
  let digits := digitsOf decimal.digits
  let power := decimal.exponent + ((digits.length : Int) - 1)
  let lead := match digits with
    | first :: second :: rest => first :: '.' :: second :: rest
    | short => short
  let sign := if power < 0 then '-' else '+'
  lead ++ 'e' :: sign :: digitsOf power.natAbs

/-- A text with a minus sign in front where the number is negative. -/
def signed (negative : Bool) (text : List Char) : String :=
  String.ofList (if negative then '-' :: text else text)

/-- The bound, ten to the power of 15, below which whole numbers are written as
such. -/
def wholeBound : Nat := 1000000000000000

def render (value : Float) : String :=
  match parts value with
  | .nan => "NaN"
  | .infinite negative => signed negative ['i', 'n', 'f']
  | .finite negative mantissa exponent =>
      if isWhole mantissa exponent ∧ wholePart mantissa exponent < wholeBound then
        signed negative (digitsOf (wholePart mantissa exponent) ++ ['.', '0'])
      else signed negative (positional (shortest .up mantissa exponent))

/-- The text of a number in JSON; only finite numbers have one. -/
def renderJson? (value : Float) : Option String :=
  match parts value with
  | .nan | .infinite _ => none
  | .finite negative mantissa exponent =>
      let decimal := shortest .toEven mantissa exponent
      let power := decimal.exponent + (((digitsOf decimal.digits).length : Int) - 1)
      let text :=
        if power < -5 ∨ 15 < power then scientific decimal
        else if 0 ≤ decimal.exponent then positional decimal ++ ['.', '0']
        else positional decimal
      some (signed negative text)

end FlowScript.Real
