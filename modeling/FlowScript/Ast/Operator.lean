/-!
# Operators

The unary and binary operators of the language and their written symbols.
-/

set_option autoImplicit false

namespace FlowScript

inductive UnaryOperator where
  | plus
  | minus
  | not
  deriving DecidableEq, Repr

namespace UnaryOperator

def symbol : UnaryOperator → String
  | .plus => "+"
  | .minus => "-"
  | .not => "not"

def all : List UnaryOperator := [.plus, .minus, .not]

def ofSymbol? (symbol : String) : Option UnaryOperator :=
  all.find? (·.symbol == symbol)

end UnaryOperator

inductive BinaryOperator where
  | times
  | divide
  | plus
  | minus
  | less
  | lessEqual
  | greater
  | greaterEqual
  | equal
  | notEqual
  | isIn
  | isA
  | and
  | or
  deriving DecidableEq, Repr

namespace BinaryOperator

def symbol : BinaryOperator → String
  | .times => "*"
  | .divide => "/"
  | .plus => "+"
  | .minus => "-"
  | .less => "<"
  | .lessEqual => "<="
  | .greater => ">"
  | .greaterEqual => ">="
  | .equal => "=="
  | .notEqual => "!="
  | .isIn => "in"
  | .isA => "is"
  | .and => "and"
  | .or => "or"

def all : List BinaryOperator :=
  [.times, .divide, .plus, .minus, .less, .lessEqual, .greater, .greaterEqual,
    .equal, .notEqual, .isIn, .isA, .and, .or]

def ofSymbol? (symbol : String) : Option BinaryOperator :=
  all.find? (·.symbol == symbol)

/-- Holds for the operators that are written as words. -/
def isWord : BinaryOperator → Bool
  | .isIn | .isA | .and | .or => true
  | _ => false

end BinaryOperator

end FlowScript
