/-!
# Grammar expressions

Grammars in which alternatives are ordered and repetition is greedy: the first
alternative that matches is taken for good, and a repetition never gives back
what it has consumed. A grammar is data. It maps each rule name to an
expression and says what may stand between the parts of that expression.
-/

set_option autoImplicit false

namespace FlowScript.Grammar

/-- What surrounds the parts of an expression while it is being matched. -/
inductive Mode where
  /-- Blanks and comments may stand between two parts. -/
  | spaced
  /-- Parts touch each other. -/
  | joined
  /-- Parts touch each other, and the rules inside leave no node and no trace. -/
  | sealed
  deriving DecidableEq, Repr

/-- A parsing expression over rule names `ρ`. -/
inductive Expression (ρ : Type) where
  /-- Matches without consuming anything. -/
  | empty
  /-- Matches the given characters. -/
  | text (chars : List Char)
  /-- Matches one character that the class accepts. -/
  | oneOf (accepts : Char → Bool)
  /-- Matches where no character is left. -/
  | endOfInput
  /-- Matches what the named rule matches. -/
  | rule (name : ρ)
  /-- Matches one expression after the other. -/
  | sequence (first second : Expression ρ)
  /-- Matches the first expression, or else the second one. -/
  | choice (first second : Expression ρ)
  /-- Matches the expression if that is possible. -/
  | optional (body : Expression ρ)
  /-- Matches the expression as often as possible, possibly never. -/
  | many (body : Expression ρ)
  /-- Continues a repetition: like `many`, with trivia before every round. -/
  | manyMore (body : Expression ρ)
  /-- Matches, without consuming anything, where the expression does not. -/
  | absent (body : Expression ρ)

namespace Expression

variable {ρ : Type}

/-- Matches the expression at least once. -/
def oneOrMore (body : Expression ρ) : Expression ρ := sequence body (many body)

def anyChar : Expression ρ := oneOf fun _ => true

def word (literal : String) : Expression ρ := text literal.toList

def sequenceOf : List (Expression ρ) → Expression ρ
  | [] => empty
  | [last] => last
  | first :: rest => sequence first (sequenceOf rest)

/-- Matches the first of the expressions that can be matched. -/
def choiceOf : List (Expression ρ) → Expression ρ
  | [] => absent empty
  | [last] => last
  | first :: rest => choice first (choiceOf rest)

/-- Matches items with separators between them, possibly none. -/
def separated (item separator : Expression ρ) : Expression ρ :=
  optional (sequence item (many (sequence separator item)))

end Expression

/-- What a rule name stands for. -/
structure RuleDefinition (ρ : Type) where
  body : Expression ρ
  /-- The mode of the body; without one, the body keeps the caller's mode. -/
  mode : Option Mode
  /-- Whether a failed attempt is remembered as a place the match got to. -/
  traced : Bool
  /-- Whether a match leaves a node in the parse tree. -/
  captured : Bool

end FlowScript.Grammar

namespace FlowScript

/-- A grammar: its rules, and the trivia that may stand between parts. -/
structure Grammar (ρ : Type) where
  rules : ρ → Grammar.RuleDefinition ρ
  trivia : Grammar.Expression ρ

end FlowScript
