import FlowScript.Ast.Operator
import FlowScript.Grammar.Matcher

/-!
# The grammar of Flow

Rules from the leaves up: words, literals, expressions by precedence, statements,
whole programs. Blanks and comments may stand between any two parts of a rule
that is not made of touching parts.
-/

set_option autoImplicit false

namespace FlowScript.Grammar

/-- Words that open or divide a construct. -/
inductive Keyword where
  | importWord
  | delayWord
  | returnWord
  | raiseWord
  | breakWord
  | tryWord
  | repeatWord
  | ifWord
  | elifWord
  | elseWord
  | awaitWord
  | forWord
  | workflowWord
  deriving DecidableEq, Repr

namespace Keyword

def spelling : Keyword → String
  | .importWord => "import"
  | .delayWord => "delay"
  | .returnWord => "return"
  | .raiseWord => "raise"
  | .breakWord => "break"
  | .tryWord => "try"
  | .repeatWord => "repeat"
  | .ifWord => "if"
  | .elifWord => "elif"
  | .elseWord => "else"
  | .awaitWord => "await"
  | .forWord => "for"
  | .workflowWord => "workflow"

end Keyword

/-- Words that no identifier may be. The word `workflow` is not among them: it
is special only after the colon of a definition. -/
def reservedWords : List String :=
  ["import", "module", "delay", "return", "raise", "break", "try", "repeat", "if", "await",
    "elif", "else", "in", "is", "for", "and", "or", "not", "true", "false"]

/-- The units a duration literal may end in, in the order they are tried. -/
def unitWords : List String :=
  ["ms", "sec", "min", "mn", "day", "week", "month"]

inductive Rule where
  | blockComment
  | keyword (word : Keyword)
  | unaryOperator (op : UnaryOperator)
  | binaryOperator (op : BinaryOperator)
  | identifier
  | identifierPath
  | stringTriple
  | stringTripleContent
  | stringSingle
  | stringSingleContent
  | boolean
  | duration
  | durationCount
  | durationUnit
  | real
  | integer
  | literal
  | expression
  | logical
  | equality
  | relational
  | additive
  | multiplicative
  | unary
  | primary
  | awaitExpression
  | tryExpression
  | functionCall
  | arguments
  | argument
  | array
  | dictionary
  | dictionaryEntry
  | block
  | statement
  | importStatement
  | delayStatement
  | returnStatement
  | raiseStatement
  | breakStatement
  | variableDeclaration
  | assignment
  | expressionStatement
  | ifStatement
  | conditional
  | repeatStatement
  | workflowDefinition
  | signature
  | parameter
  | returnType
  | endOfInput
  | program
  | expressionOnly
  deriving DecidableEq, Repr

def isBlank (char : Char) : Bool :=
  char == ' ' || char == '\t' || char == '\r' || char == '\n'

/-- Characters that may continue an identifier. -/
def isWordChar (char : Char) : Bool := char.isAlphanum || char == '_'

/-- Characters that may begin an identifier. -/
def isWordStart (char : Char) : Bool := char.isAlpha || char == '_'

namespace Rule

open Expression

/-- Matches where no character continues a word. -/
def wordEnd : Expression Rule := absent (oneOf isWordChar)

/-- Matches a text that no further word character follows. -/
def wholeWord (spelling : String) : Expression Rule :=
  sequence (word spelling) wordEnd

/-- Matches one of the texts, with no further word character behind it. -/
def wholeWordOf (spellings : List String) : Expression Rule :=
  sequence (choiceOf (spellings.map word)) wordEnd

/-- Matches the equals sign of a binding, and not the start of a comparison. -/
def bindingSign : Expression Rule :=
  sequence (word "=") (absent (word "="))

/-- Matches one precedence level: operands of the next level with operators of
this level between them. -/
def level (operand : Rule) (operators : List BinaryOperator) : Expression Rule :=
  sequence (rule operand) (many (sequence
    (choiceOf (operators.map fun op => rule (binaryOperator op))) (rule operand)))

/-- Matches a comma separated list between two delimiters. -/
def listBetween (opening : String) (item : Rule) (closing : String) : Expression Rule :=
  sequenceOf [word opening, separated (rule item) (word ","), word closing]

/-- A comment up to the end of its line, or a block comment. -/
def comment : Expression Rule :=
  choice
    (sequence (word "//") (many (oneOf fun char => char != '\n' && char != '\r')))
    (rule blockComment)

def trivia : Expression Rule :=
  sequence (many (oneOf isBlank)) (many (sequence comment (many (oneOf isBlank))))

/-- A rule whose parts may have trivia between them. -/
def spacedRule (body : Expression Rule) : RuleDefinition Rule := ⟨body, none, true, true⟩

/-- A rule that is one token. -/
def tokenRule (body : Expression Rule) : RuleDefinition Rule := ⟨body, some .sealed, true, true⟩

/-- A rule whose parts touch and leave nodes of their own. -/
def joinedRule (body : Expression Rule) : RuleDefinition Rule := ⟨body, some .joined, true, true⟩

def definition : Rule → RuleDefinition Rule
  | blockComment =>
      ⟨sequenceOf [word "/*",
        many (choice (rule blockComment) (sequence (absent (word "*/")) anyChar)),
        word "*/"], none, false, false⟩
  | keyword kind => ⟨wholeWord kind.spelling, some .sealed, true, false⟩
  | unaryOperator .not => tokenRule (wholeWord "not")
  | unaryOperator op => spacedRule (word op.symbol)
  | binaryOperator op =>
      if op.isWord then tokenRule (wholeWord op.symbol) else spacedRule (word op.symbol)
  | identifier =>
      tokenRule (sequenceOf [absent (wholeWordOf reservedWords), oneOf isWordStart,
        many (oneOf isWordChar)])
  | identifierPath =>
      spacedRule (sequence (rule identifier) (many (sequence (word ".") (rule identifier))))
  | stringTriple =>
      joinedRule (sequenceOf [word "'''", rule stringTripleContent, word "'''"])
  | stringTripleContent =>
      tokenRule (many (sequence (absent (word "'''")) anyChar))
  | stringSingle =>
      joinedRule (sequenceOf [word "'", rule stringSingleContent, word "'"])
  | stringSingleContent =>
      tokenRule (oneOrMore (sequence (absent (word "'")) anyChar))
  | boolean => tokenRule (wholeWordOf ["true", "false"])
  | duration => joinedRule (sequence (rule durationCount) (rule durationUnit))
  | durationCount => tokenRule (oneOrMore (oneOf Char.isDigit))
  | durationUnit => tokenRule (wholeWordOf unitWords)
  | real =>
      tokenRule (choice
        (sequenceOf [many (oneOf Char.isDigit), word ".", oneOrMore (oneOf Char.isDigit)])
        (sequenceOf [oneOrMore (oneOf Char.isDigit), word ".", wordEnd]))
  | integer => tokenRule (sequence (oneOrMore (oneOf Char.isDigit)) wordEnd)
  | literal =>
      spacedRule (choiceOf [rule stringTriple, rule stringSingle, rule boolean, rule duration,
        rule real, rule integer])
  | expression => spacedRule (rule logical)
  | logical => spacedRule (level equality [.and, .or])
  | equality => spacedRule (level relational [.equal, .notEqual, .isIn, .isA])
  | relational => spacedRule (level additive [.lessEqual, .less, .greaterEqual, .greater])
  | additive => spacedRule (level multiplicative [.plus, .minus])
  | multiplicative => spacedRule (level unary [.times, .divide])
  | unary =>
      spacedRule (sequence
        (optional (choiceOf [rule (unaryOperator .plus), rule (unaryOperator .minus),
          rule (unaryOperator .not)]))
        (rule primary))
  | primary =>
      spacedRule (choiceOf [rule awaitExpression, rule tryExpression, rule literal,
        rule functionCall, rule identifierPath, rule array, rule dictionary,
        sequenceOf [word "(", rule expression, word ")"]])
  | awaitExpression =>
      spacedRule (sequenceOf [rule (keyword .awaitWord), rule expression,
        rule (keyword .forWord), rule expression])
  | tryExpression => spacedRule (sequence (rule (keyword .tryWord)) (rule expression))
  | functionCall => spacedRule (sequence (rule identifierPath) (rule arguments))
  | arguments => spacedRule (listBetween "(" argument ")")
  | argument =>
      spacedRule (sequence (optional (sequence (rule identifier) bindingSign)) (rule expression))
  | array => spacedRule (listBetween "[" expression "]")
  | dictionary => spacedRule (listBetween "(" dictionaryEntry ")")
  | dictionaryEntry =>
      spacedRule (sequenceOf [rule identifier, bindingSign, rule expression])
  | block => spacedRule (sequenceOf [word "\x7b", many (rule statement), word "\x7d"])
  | statement =>
      spacedRule (choice
        (sequence
          (choiceOf [rule workflowDefinition, rule ifStatement, rule repeatStatement])
          (many (word ";")))
        (sequence
          (choiceOf [rule importStatement, rule delayStatement, rule returnStatement,
            rule raiseStatement, rule breakStatement, rule variableDeclaration,
            rule assignment, rule expressionStatement])
          (oneOrMore (word ";"))))
  | importStatement =>
      spacedRule (sequence (rule (keyword .importWord)) (rule identifierPath))
  | delayStatement => spacedRule (sequence (rule (keyword .delayWord)) (rule expression))
  | returnStatement => spacedRule (sequence (rule (keyword .returnWord)) (rule expression))
  | raiseStatement => spacedRule (sequence (rule (keyword .raiseWord)) (rule expression))
  | breakStatement => spacedRule (rule (keyword .breakWord))
  | variableDeclaration =>
      spacedRule (sequenceOf [rule identifier, word ":", rule identifier,
        optional (sequence bindingSign (rule expression))])
  | assignment =>
      spacedRule (sequenceOf [rule identifierPath, bindingSign, rule expression])
  | expressionStatement => spacedRule (rule expression)
  | ifStatement =>
      spacedRule (sequenceOf [rule (keyword .ifWord), rule conditional,
        many (sequence (rule (keyword .elifWord)) (rule conditional)),
        optional (sequence (rule (keyword .elseWord)) (rule block))])
  | conditional => spacedRule (sequence (rule expression) (rule block))
  | repeatStatement => spacedRule (sequence (rule (keyword .repeatWord)) (rule block))
  | workflowDefinition =>
      spacedRule (sequenceOf [rule identifier, word ":", rule (keyword .workflowWord),
        choice
          (sequenceOf [word "=", optional (rule signature), rule block])
          (sequenceOf [rule signature, word "=", rule block])])
  | signature =>
      spacedRule (sequence (listBetween "(" parameter ")")
        (optional (sequence (word "->") (rule returnType))))
  | parameter => spacedRule (sequenceOf [rule identifier, word ":", rule identifier])
  | returnType => spacedRule (rule identifier)
  | endOfInput => ⟨Expression.endOfInput, none, true, false⟩
  | program => spacedRule (sequenceOf [empty, many (rule statement), rule endOfInput])
  | expressionOnly => spacedRule (sequenceOf [empty, rule expression, rule endOfInput])

end Rule

def flow : Grammar Rule := ⟨Rule.definition, Rule.trivia⟩

end FlowScript.Grammar
