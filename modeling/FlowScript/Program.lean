import FlowScript.Ast.Reader

/-!
# Programs

A program is a named source text together with the script read from it. Reading
can go wrong in two ways: the text is not in the grammar, or it holds a number
that does not fit in a word. Either way there is an offset to point at.
-/

set_option autoImplicit false

namespace FlowScript

/-- Why a text could not be read. -/
inductive ParseError where
  /-- The text is not in the grammar; the offset is the furthest place tried. -/
  | unexpected (offset : Nat)
  /-- The text is in the grammar, and a literal in it cannot be read. -/
  | unreadable (error : ReadError)
  /-- Matching was given up before an answer was known. -/
  | abandoned
  deriving DecidableEq, Repr

namespace ParseError

def offset : ParseError → Nat
  | .unexpected offset => offset
  | .unreadable error => error.span.start
  | .abandoned => 0

/-- The stretch of text to point at. A misplaced text is one column wide; its line
and column are the matcher's, which count from one. -/
def span (source : Text) : ParseError → Span
  | .unexpected offset =>
      let (line, column) := source.matcherPosition offset
      ⟨offset, offset, line - 1, column - 1, line - 1, column⟩
  | .unreadable error => error.span
  | .abandoned => .origin

def expectation : ParseError → String
  | .unexpected _ => "Expecting: valid statement here:"
  | .unreadable error => error.fault.message
  | .abandoned => "Expecting: a shorter program"

/-- The diagnostic shown for a text that could not be read. -/
def diagnostic (error : ParseError) (source : Text) (file : String) : String :=
  "Parsing error !!\n" ++ error.expectation ++ "\n" ++ source.annotate file error.offset

end ParseError

/-- Matches a text against a start rule and yields the node of that rule. -/
def parseTree (start : Grammar.Rule) (source : Text) : Except ParseError Ast.Tree :=
  match Grammar.flow.parse start source with
  | .matched [tree] _ _ => .ok tree
  | .matched _ _ _ => .error .abandoned
  | .failed furthest => .error (.unexpected furthest)
  | .exhausted => .error .abandoned

def parseScript (source : Text) : Except ParseError Script := do
  let tree ← parseTree .program source
  (Ast.readScript source tree).mapError .unreadable

def parseExpression (source : Text) : Except ParseError Expr := do
  let tree ← parseTree .expressionOnly source
  match tree.children with
  | [child] => (Ast.readExpr source child).mapError .unreadable
  | _ => throw .abandoned

structure Program where
  file : String
  source : Text
  script : Script

namespace Program

/-- Reads a program, or renders the diagnostic that says why it is none. -/
def parse (source file : String) : Except String Program :=
  match parseScript source.toList with
  | .ok script => .ok ⟨file, source.toList, script⟩
  | .error error => .error (error.diagnostic source.toList file)

def code (program : Program) (span : Span) : String := program.source.code span

/-- The diagnostic that points at the start of a span. -/
def annotate (program : Program) (span : Span) : String :=
  program.source.annotate program.file span.start

end Program

end FlowScript
