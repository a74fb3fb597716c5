import FlowScript.Ast.Basic
import FlowScript.Fault
import FlowScript.Real.Text
import FlowScript.Time.InstantText

/-!
# Single values

Values without parts: booleans, numbers, strings, durations and points in time.
Their operators are functions of the operands alone. An operator that is not
defined for a pair of kinds has no result; one that is may still fail.
-/

set_option autoImplicit false

namespace FlowScript

/-- A value without parts. -/
inductive Scalar where
  | boolean (value : Bool)
  | integer (value : Int64)
  | real (value : Float)
  | string (value : String)
  | duration (value : Duration)
  | timePoint (value : Instant)

inductive Number where
  | integer (value : Int64)
  | real (value : Float)

def Number.toReal : Number → Float
  | .integer value => Real.ofInt64 value
  | .real value => value

def Duration.Fault.cause : Duration.Fault → Cause
  | .negative => .negativeDuration
  | .overflow => .durationOverflow
  | .divisionByZero => .divisionByZero

def Instant.Fault.cause : Instant.Fault → Cause
  | .tooLong => .durationOverflow
  | .outOfRange => .timePointOutOfRange

namespace Scalar

/-- The value a literal stands for. -/
def ofLiteral : Literal → Scalar
  | .string value => .string value
  | .boolean value => .boolean value
  | .integer value => .integer value
  | .real value => .real value
  | .duration value => .duration value

def kind : Scalar → StoredKind
  | .boolean _ => .boolean
  | .integer _ => .integer
  | .real _ => .real
  | .string _ => .string
  | .duration _ => .duration
  | .timePoint _ => .timePoint

def render : Scalar → String
  | .boolean value => if value then "true" else "false"
  | .integer value => toString value.toInt
  | .real value => Real.render value
  | .string value => value
  | .duration value => value.render
  | .timePoint value => value.render

def number? : Scalar → Option Number
  | .integer value => some (.integer value)
  | .real value => some (.real value)
  | _ => none

/-! ## Comparison -/

/-- What a comparison operator says about an order. -/
def decideOrder (op : BinaryOperator) (order : Ordering) : Option Bool :=
  match op with
  | .less => some (order == .lt)
  | .lessEqual => some (order != .gt)
  | .greater => some (order == .gt)
  | .greaterEqual => some (order != .lt)
  | .equal => some (order == .eq)
  | .notEqual => some (order != .eq)
  | _ => none

/-- Strings are ordered by their code points. -/
def stringOrder (left right : String) : Ordering :=
  if left < right then .lt else if left = right then .eq else .gt

/-- Two integers are compared exactly, any other two numbers as reals. What is
not a number has no order. -/
def numberOrder (left right : Number) : Option Ordering :=
  match left, right with
  | .integer left, .integer right => some (compare left.toInt right.toInt)
  | left, right => Real.order left.toReal right.toReal

/-- Without an order, only "not equal" holds. -/
def compareNumbers (op : BinaryOperator) (left right : Number) : Option Bool :=
  match numberOrder left right with
  | some order => decideOrder op order
  | none => some (op == .notEqual)

/-- Holds when a text occurs in another one. -/
def occursIn (needle : List Char) : List Char → Bool
  | [] => needle.isEmpty
  | char :: rest => needle.isPrefixOf (char :: rest) || occursIn needle rest

/-! ## Arithmetic -/

/-- The integer with the given value, which must fit in a word. -/
def integerResult (value : Int) : Except Cause Scalar :=
  match signedOfInt? value with
  | some value => .ok (.integer value)
  | none => .error .integerOverflow

/-- Integer arithmetic. Quotients are cut off towards zero. -/
def integerArithmetic (op : BinaryOperator) (left right : Int64) :
    Option (Except Cause Scalar) :=
  let left := left.toInt
  let right := right.toInt
  match op with
  | .times => some (integerResult (left * right))
  | .divide =>
      if right = 0 then some (.error .divisionByZero)
      else some (integerResult (left.tdiv right))
  | .plus => some (integerResult (left + right))
  | .minus => some (integerResult (left - right))
  | _ => none

def realArithmetic (op : BinaryOperator) (left right : Float) : Option Float :=
  match op with
  | .times => some (left * right)
  | .divide => some (left / right)
  | .plus => some (left + right)
  | .minus => some (left - right)
  | _ => none

/-- Two integers give an integer, any other two numbers a real. -/
def arithmetic (op : BinaryOperator) (left right : Number) : Option (Except Cause Scalar) :=
  match left, right with
  | .integer left, .integer right => integerArithmetic op left right
  | left, right => (realArithmetic op left.toReal right.toReal).map fun value => .ok (.real value)

def truth (value : Option Bool) : Option (Except Cause Scalar) :=
  value.map fun value => .ok (.boolean value)

/-! ## Operators by kind -/

def booleanBinary (op : BinaryOperator) (left right : Bool) : Option Bool :=
  match op with
  | .and => some (left && right)
  | .or => some (left || right)
  | .equal => some (left == right)
  | .notEqual => some (left != right)
  | _ => none

def numberBinary (op : BinaryOperator) (left right : Number) : Option (Except Cause Scalar) :=
  match op with
  | .times | .divide | .plus | .minus => arithmetic op left right
  | .less | .lessEqual | .greater | .greaterEqual | .equal | .notEqual =>
      truth (compareNumbers op left right)
  | .isIn | .isA | .and | .or => none

def stringBinary (op : BinaryOperator) (left right : String) : Option (Except Cause Scalar) :=
  match op with
  | .plus => some (.ok (.string (left ++ right)))
  | .isIn => truth (some (occursIn right.toList left.toList))
  | _ => truth (decideOrder op (stringOrder left right))

def durationBinary (op : BinaryOperator) (left right : Duration) :
    Option (Except Cause Scalar) :=
  match op with
  | .plus => some (((left.add right).mapError (·.cause)).map .duration)
  | .minus => some (((left.sub right).mapError (·.cause)).map .duration)
  | _ => truth (decideOrder op (left.order right))

/-- A duration and a whole number. -/
def durationScale (op : BinaryOperator) (left : Duration) (right : Int64) :
    Option (Except Cause Scalar) :=
  match op with
  | .times => some (((left.scale right.toInt).mapError (·.cause)).map .duration)
  | .divide => some (((left.split right.toInt).mapError (·.cause)).map .duration)
  | _ => none

/-- A point in time and a duration. -/
def timePointShift (op : BinaryOperator) (left : Instant) (right : Duration) :
    Option (Except Cause Scalar) :=
  match op with
  | .plus => some (((left.add right).mapError (·.cause)).map .timePoint)
  | .minus => some (((left.sub right).mapError (·.cause)).map .timePoint)
  | _ => none

/-- Two points in time: the time between them, or their order. -/
def timePointBinary (op : BinaryOperator) (left right : Instant) :
    Option (Except Cause Scalar) :=
  match op with
  | .minus =>
      some (((Duration.ofMillis (left.millisSince right)).mapError (·.cause)).map .duration)
  | _ => truth (decideOrder op (left.order right))

/-- A binary operator. For `in` the left operand is the container. -/
def binary (op : BinaryOperator) (left right : Scalar) : Option (Except Cause Scalar) :=
  match left, right with
  | .boolean left, .boolean right => truth (booleanBinary op left right)
  | .integer left, .integer right => numberBinary op (.integer left) (.integer right)
  | .integer left, .real right => numberBinary op (.integer left) (.real right)
  | .real left, .integer right => numberBinary op (.real left) (.integer right)
  | .real left, .real right => numberBinary op (.real left) (.real right)
  | .string left, .string right => stringBinary op left right
  | .duration left, .duration right => durationBinary op left right
  | .duration left, .integer right => durationScale op left right
  | .timePoint left, .duration right => timePointShift op left right
  | .timePoint left, .timePoint right => timePointBinary op left right
  | _, _ => none

def unary (op : UnaryOperator) (operand : Scalar) : Option (Except Cause Scalar) :=
  match op, operand with
  | .plus, .integer value => some (.ok (.integer value))
  | .plus, .real value => some (.ok (.real value))
  | .minus, .integer value => some (integerResult (-value.toInt))
  | .minus, .real value => some (.ok (.real (-value)))
  | .not, .boolean value => some (.ok (.boolean (!value)))
  | _, _ => none

/-! ## Conversion -/

/-- The number as a value of another kind. An integer passes through the reals
even when the target is the integers. -/
def convertNumber? (value : Number) (target : StoredKind) : Option Scalar :=
  match target with
  | .boolean => some (.boolean (value.toReal != 0.0))
  | .real => some (.real value.toReal)
  | .integer => some (.integer (Real.toInt64 value.toReal))
  | .string =>
      match value with
      | .integer value => some (.string (render (.integer value)))
      | .real value => some (.string (render (.real value)))
  | _ => none

/-- The value as one of another kind. -/
def convert? (value : Scalar) (target : StoredKind) : Option Scalar :=
  match value, target with
  | .integer value, target => convertNumber? (.integer value) target
  | .real value, target => convertNumber? (.real value) target
  | .boolean value, .string => some (.string (render (.boolean value)))
  | .string value, .boolean => some (.boolean (!value.isEmpty))
  | .duration value, .boolean => some (.boolean (value.count != 0))
  | _, _ => none

end Scalar

end FlowScript
