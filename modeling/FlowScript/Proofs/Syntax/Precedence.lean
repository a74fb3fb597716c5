import FlowScript.Proofs.Grammar.Levels
import FlowScript.Proofs.Syntax.Settling.Expressions
import FlowScript.Proofs.Syntax.Writing

/-!
# Precedence of operators

Operands with any operators between them are an expression. Its syntax tree is what comes
out of a table of five levels: split at the operators of the loosest level that occurs, put
what is found there into one chain, and go on the same way in each part.
-/

set_option autoImplicit false

namespace FlowScript

open FlowScript.Grammar

/-! ## Words with blanks between them -/

/-- The words with one blank between each two of them. -/
def spaced : List Text → Text
  | [] => []
  | [word] => word
  | word :: next :: rest => word ++ ' ' :: spaced (next :: rest)

namespace Grammar

theorem Row.blank {text : Text} {row : List Text} (rows : Row text row) :
    Row (' ' :: text) row := by
  cases rows with
  | done skipped => exact .done (.blank rfl skipped)
  | word skipped lexeme more => exact .word (.blank rfl skipped) lexeme more

/-- Tokens with blanks between them are a row. -/
theorem spaced_row {words : List Text} (tokens : ∀ word ∈ words, Lexeme word []) :
    Row (spaced words) words ∧ AtToken (spaced words) := by
  induction words with
  | nil => exact ⟨.done (.nil atToken_nil), atToken_nil⟩
  | cons word rest ih =>
      obtain ⟨here, others⟩ := List.forall_mem_cons.mp tokens
      cases rest with
      | nil =>
          have start := here.atToken
          have row := Row.word (.nil start) here (.done (.nil atToken_nil))
          rw [List.append_nil] at start row
          exact ⟨row, start⟩
      | cons next rest =>
          have beside : Lexeme word (' ' :: spaced (next :: rest)) := by
            apply here.loosen
            rintro char ⟨⟩
            exact .inr rfl
          exact ⟨.word (.nil beside.atToken) beside (ih others).1.blank, beside.atToken⟩

/-- What is written like a name is a token. -/
theorem lexeme_of_isSpelled {word : Text} (spelled : isSpelled word) : Lexeme word [] := by
  cases word with
  | nil => cases spelled
  | cons char chars =>
      obtain ⟨start, others⟩ := isSpelled_cons.mp spelled
      exact .word start others (Text.stops_nil _)

/-- The symbol of an operator is a token. -/
theorem symbol_lexeme (op : BinaryOperator) : Lexeme op.symbol.toList [] := by
  cases op with
  | isIn | isA | and | or => exact lexeme_of_isSpelled (by decide)
  | lessEqual | greaterEqual | equal | notEqual => exact .pair (by decide)
  | _ => exact .symbol (by decide) (Text.stops_nil _)

end Grammar

/-! ## The table -/

/-- The operators by level, the loosest level first. -/
def precedence : List (List BinaryOperator) :=
  [[.and, .or], [.equal, .notEqual, .isIn, .isA],
    [.lessEqual, .less, .greaterEqual, .greater], [.plus, .minus], [.times, .divide]]

namespace Operands

/-- The operations of a chain behind its first operand. -/
def operations (op : BinaryOperator) : Operands Expr → List Operation
  | single operand => [⟨op, operand, .origin⟩]
  | cons first next rest => ⟨op, first, .origin⟩ :: rest.operations next

/-- One chain of all operands; a single operand is no chain. -/
def chain : Operands Expr → Expr
  | single operand => operand
  | cons first op rest => .chain first (rest.operations op) .origin

/-- One chain for every level that occurs, of what the tighter levels make of its parts. -/
def group : List (List BinaryOperator) → Operands Expr → Expr
  | [], operands => operands.first
  | operators :: tighter, operands => ((operands.split operators).map (group tighter)).chain

end Operands

/-! ## Operands by themselves -/

/-- The rule of the node inside of an operand. -/
def operandForm? : Ast.Tree → Option Rule
  | .node .unary _ _ children =>
      match children.getLast? with
      | some (.node .primary _ _ [form]) => some form.rule
      | _ => none
  | _ => none

/-- Holds for texts that are, as a whole, a literal, a path, a call, an array, a dictionary or
an expression between parentheses, perhaps behind one operator. -/
def isOperand (text : Text) : Bool :=
  match flow.parse .unary text with
  | .matched [tree] cursor _ => cursor.rest.isEmpty && (operandForm? tree).any operandForms.contains
  | _ => false

/-- A well-formed operand, and the syntax tree it has when it stands alone. -/
structure Operand where
  words : List Text
  value : Expr
  tokens : ∀ word ∈ words, Lexeme word []
  form : isOperand (spaced words)
  parsed : parseExpression (spaced words) = .ok value

/-! ## What the grammar makes of operands -/

namespace Grammar

section

variable {source : Text} {tokens : List Token} (lexes : Lexes [] source tokens)

theorem isOperand_of_form {tree : Ast.Tree} (source : Text)
    (form : (operandForm? tree).any operandForms.contains) : IsOperand (tree.sketch source) := by
  obtain ⟨rule, start, stop, children⟩ := tree
  unfold operandForm? at form
  split at form
  · next same =>
      cases same
      split at form
      · next last =>
          obtain ⟨before, rfl⟩ := List.getLast?_eq_some_iff.mp last
          next primary =>
          obtain ⟨rule, _, _, inside⟩ := primary
          simp only [Node.sketch, sketchAll_append, sketchAll]
          exact .intro _ _ _ _ (List.contains_iff_mem.mp form)
      · cases form
  · cases form

include lexes

/-- The words of an operand are an operand. -/
theorem operand_derives (token : AtToken source) (form : isOperand source) :
    ∃ sketch, IsOperand sketch ∧
      Derives (.rule .unary) (words tokens) (some ([sketch], [])) := by
  have shows := (flow_parse_shows .unary source).2
  unfold isOperand at form
  split at form
  · next tree cursor _ parsed =>
      rw [parsed] at shows
      obtain ⟨stretches, yields⟩ := shows
      obtain ⟨ends, shape⟩ := Bool.and_eq_true_iff.mp form
      have agrees := agrees_at_token (by decide) (by decide) (fun _ _ => rfl)
        lexes token yields
      obtain ⟨used, later, before, rest, rfl, -, rfl, -, onward, derives⟩ := agrees
      obtain rfl : rest = [] := List.isEmpty_iff.mp ends
      obtain rfl := (onward.front atToken_nil).nil
      exact ⟨_, isOperand_of_form _ shape, derives⟩
  · cases form

/-- What the grammar makes of a text that is one expression. -/
theorem expressionOnly_agrees {result : Option (Match Rule)}
    (yields : flow.Yields (flow.rules .expressionOnly).body .spaced (.after [] source) result) :
    Agrees source (.sequence (.rule .expression) (.rule .endOfInput)) tokens result :=
  agrees_at_start (by decide) (by decide) (fun _ _ => rfl) lexes yields

/-- The tree of words that are an expression has the sketch of the expression. -/
theorem expressionOnly_tree {sketch : Sketch}
    (whole : Derives (.sequence (.rule .expression) (.rule .endOfInput)) (words tokens)
      (some ([sketch], []))) {found : Match Rule}
    (yields : flow.Yields (.rule .expressionOnly) .spaced (.after [] source) (some found)) :
    ∃ stop child, found.nodes = [.node .expressionOnly 0 stop [child]] ∧
      child.sketch source = sketch := by
  cases yields with
  | @rule _ _ _ body yields =>
      obtain ⟨used, later, _, _, rfl, -, -, -, -, derives⟩ := expressionOnly_agrees lexes yields
      have same := congrArg Prod.fst (Option.some.inj (whole.unique derives))
      obtain ⟨child, only, rfl⟩ := sketchAll_eq_single same.symm
      refine ⟨body.cursor.offset, child, ?_, rfl⟩
      rw [← only]
      rfl

/-- Words that are an expression have a tree with the sketch of the expression. -/
theorem expression_parseTree {sketch : Sketch}
    (derives : Derives (.rule .expression) (words tokens) (some ([sketch], []))) :
    ∃ stop child, parseTree .expressionOnly source = .ok (.node .expressionOnly 0 stop [child]) ∧
      child.sketch source = sketch := by
  have whole : Derives (.sequence (.rule .expression) (.rule .endOfInput)) (words tokens)
      (some ([sketch] ++ [], [])) := .sequence derives (.rule rfl .endOfInput)
  obtain ⟨ends, shows⟩ := flow_parse_shows .expressionOnly source
  cases parsed : flow.parse .expressionOnly source with
  | exhausted => exact absurd parsed ends
  | failed furthest =>
      rw [parsed] at shows
      cases shows with
      | ruleFails body => cases whole.unique (expressionOnly_agrees lexes body)
  | matched nodes cursor furthest =>
      rw [parsed] at shows
      obtain ⟨stretches, yields⟩ := shows
      obtain ⟨tree, only, -, found⟩ := yields.parseTree rfl
      obtain ⟨stop, child, same, sketched⟩ := expressionOnly_tree lexes whole yields
      cases only.symm.trans same
      exact ⟨stop, child, found, sketched⟩

end

end Grammar

/-! ## What is read from levels -/

/-- Trees with this sketch are read as this expression, apart from spans. -/
def Reads (sketch : Sketch) (expr : Expr) : Prop :=
  ∀ (source : Text) (tree : Ast.Tree), tree.sketch source = sketch →
    ∃ read, Ast.readExpr source tree = .ok read ∧ read.unlocated = expr

/-- What is read from a tree that fits the grammar is read from all trees with its sketch. -/
theorem reads_of_read {source : Text} {tree : Ast.Tree} {expr : Expr}
    (fits : tree.All Ast.Fits) (read : Ast.readExpr source tree = .ok expr) :
    Reads (tree.sketch source) expr.unlocated := by
  intro target twin same
  obtain ⟨other, otherRead, alike⟩ :=
    ((Ast.legible_of_fits fits).root.reads twin same.symm).expr expr read
  exact ⟨other, otherRead, alike.symm⟩

section

variable {α : Type} {sketch : α → Sketch} {value : α → Expr}

/-- Operators and operands by turns are read one after the other. -/
theorem operations_read {parts : Operands α} {op : BinaryOperator}
    (reads : parts.All (fun _ => True) fun part => Reads (sketch part) (value part))
    {source : Text} {trees : List Ast.Tree}
    (same : sketchAll source trees =
      .node (.binaryOperator op) [] [] :: row (parts.map sketch)) (start stop : Nat) :
    ∃ operations, Ast.readOperations source start stop trees = .ok operations ∧
      Operation.allUnlocated operations = (parts.map value).operations op := by
  induction parts generalizing op trees with
  | single part =>
      obtain ⟨_, _, rfl, sign, more⟩ := sketchAll_eq_cons same
      obtain ⟨opening, closing, inside, rfl, -, -⟩ := sketch_eq_node sign
      obtain ⟨operand, rfl, sketched⟩ := sketchAll_eq_single more
      obtain ⟨expr, read, unlocated⟩ := reads source operand sketched
      simp only [Ast.readOperations, read]
      refine ⟨_, rfl, ?_⟩
      simp only [Operation.allUnlocated, unlocated, Operands.map, Operands.operations]
  | cons part next rest ih =>
      obtain ⟨here, -, behind⟩ := reads
      obtain ⟨_, _, rfl, sign, more⟩ := sketchAll_eq_cons same
      obtain ⟨opening, closing, inside, rfl, -, -⟩ := sketch_eq_node sign
      obtain ⟨operand, _, rfl, sketched, more⟩ := sketchAll_eq_cons more
      obtain ⟨expr, read, unlocated⟩ := here source operand sketched
      obtain ⟨operations, others, same⟩ := ih behind more
      simp only [Ast.readOperations, read, others]
      refine ⟨_, rfl, ?_⟩
      simp only [Operation.allUnlocated, unlocated, same, Operands.map, Operands.operations]

/-- One level is read as one chain. -/
theorem row_reads {level : Rule} (isLevel : level.isLevel) {parts : Operands α}
    (reads : parts.All (fun _ => True) fun part => Reads (sketch part) (value part)) :
    Reads (.node level [] (row (parts.map sketch))) (parts.map value).chain := by
  intro source tree same
  obtain ⟨start, stop, children, rfl, -, inside⟩ := sketch_eq_node same
  cases parts with
  | single part =>
      obtain ⟨operand, rfl, sketched⟩ := sketchAll_eq_single inside
      rw [Ast.readExpr_level_single isLevel]
      exact reads source operand sketched
  | cons part op rest =>
      obtain ⟨here, -, behind⟩ := reads
      obtain ⟨operand, _, rfl, sketched, more⟩ := sketchAll_eq_cons inside
      obtain ⟨expr, read, unlocated⟩ := here source operand sketched
      obtain ⟨operations, others, same⟩ := operations_read behind more start stop
      rw [Ast.readExpr_level isLevel, read, others]
      have some : operations ≠ [] := by
        rintro rfl
        cases rest <;> cases same
      refine ⟨.chain expr operations (source.span start stop), ?_, ?_⟩
      · change Except.ok (Ast.chainOf expr operations (source.span start stop)) = _
        rw [Ast.chainOf, if_neg (by simpa using some)]
      · simp only [Expr.unlocated, unlocated, same, Operands.map, Operands.chain]

/-- All levels are read as the table says. -/
theorem nest_reads {levels : List (Rule × List BinaryOperator)}
    (areLevels : ∀ level ∈ levels, level.1.isLevel) {operands : Operands α}
    (reads : operands.All (fun _ => True) fun operand => Reads (sketch operand) (value operand)) :
    Reads (nest levels (operands.map sketch))
      ((operands.map value).group (levels.map (·.2))) := by
  induction levels generalizing operands with
  | nil =>
      cases operands with
      | single operand => exact reads
      | cons first op rest => exact reads.1
  | cons both tighter ih =>
      obtain ⟨level, operators⟩ := both
      obtain ⟨isLevel, others⟩ := List.forall_mem_cons.mp areLevels
      have parts := (reads.split operators).imp (fun _ _ => trivial) fun part all =>
        ih others (all.imp (fun _ _ => trivial) fun _ => id)
      have whole := row_reads isLevel parts
      simpa only [nest, List.map_cons, Operands.group, Operands.split_map, Operands.map_map]
        using whole

end

/-! ## Whole expressions -/

/-- The rules of the levels, with their operators. -/
def levels : List (Rule × List BinaryOperator) :=
  [Rule.logical, .equality, .relational, .additive, .multiplicative].zip precedence

theorem levels_climb : Climbs levels :=
  .cons rfl rfl nofun (by decide) (.cons rfl rfl nofun (by decide)
    (.cons rfl rfl nofun (by decide) (.cons rfl rfl nofun (by decide)
      (.cons rfl rfl nofun (by decide) .nil))))

theorem mem_operatorsOf_levels (op : BinaryOperator) : op ∈ operatorsOf levels := by
  cases op <;> decide

/-- Words that the loosest level reads are an expression, which is what is read from it. -/
theorem parseExpression_of_level {source : Text} {tokens : List Token}
    (lexes : Lexes [] source tokens) {sketch : Sketch}
    (stands : Stands (loosest levels) (operatorsOf levels) (words tokens) sketch) :
    ∃ tree : Ast.Tree, tree.sketch source = sketch ∧ tree.All Ast.Fits ∧
      parseExpression source = (Ast.readExpr source tree).mapError .unreadable := by
  have level := stands [] nofun
  rw [List.append_nil] at level
  have whole : Derives (.rule .expression) (words tokens)
      (some ([.node .expression [] [sketch]], [])) := .rule rfl level
  obtain ⟨stop, child, found, sketched⟩ := expression_parseTree lexes whole
  obtain ⟨opening, closing, inside, rfl, -, same⟩ := sketch_eq_node sketched
  obtain ⟨tree, rfl, treeSketched⟩ := sketchAll_eq_single same
  obtain ⟨cursor, stretches, yields⟩ := parseTree_yields found
  have shaped := (yields.shaped (.inl (by decide)) _ rfl).nodes _ List.mem_cons_self
  have fits := ((Ast.fits_of_shaped shaped).child List.mem_cons_self).child List.mem_cons_self
  refine ⟨tree, treeSketched, fits, ?_⟩
  unfold parseExpression
  rw [found]
  rfl

/-- The levels of an operand that stands alone leave nothing. -/
theorem nest_single_read {source : Text} {levels : List (Rule × List BinaryOperator)}
    (areLevels : ∀ level ∈ levels, level.1.isLevel) {tree : Ast.Tree} {sketch : Sketch}
    (same : tree.sketch source = nest levels (.single sketch)) (fits : tree.All Ast.Fits) :
    ∃ inner : Ast.Tree, inner.sketch source = sketch ∧ inner.All Ast.Fits ∧
      Ast.readExpr source tree = Ast.readExpr source inner := by
  induction levels generalizing tree with
  | nil => exact ⟨tree, same, fits, rfl⟩
  | cons both tighter ih =>
      obtain ⟨level, operators⟩ := both
      obtain ⟨isLevel, others⟩ := List.forall_mem_cons.mp areLevels
      obtain ⟨start, stop, children, rfl, -, inside⟩ := sketch_eq_node same
      obtain ⟨child, rfl, sketched⟩ := sketchAll_eq_single inside
      obtain ⟨inner, innerSame, innerFits, read⟩ :=
        ih others sketched (fits.child List.mem_cons_self)
      exact ⟨inner, innerSame, innerFits, (Ast.readExpr_level_single isLevel ..).trans read⟩

theorem levels_areLevels : ∀ level ∈ levels, level.1.isLevel := by decide

/-- An operand is the same one between operators as it is alone. -/
theorem operand_stands (operand : Operand) : ∃ sketch,
    Stands .unary [] operand.words sketch ∧ Reads sketch operand.value.unlocated := by
  obtain ⟨row, token⟩ := spaced_row operand.tokens
  obtain ⟨tokens, lexes, same⟩ := row.lexes []
  obtain ⟨sketch, isOperand, derives⟩ := operand_derives lexes token operand.form
  rw [same] at derives
  have stands : Stands .unary [] operand.words sketch :=
    fun after behind => operand_firm derives isOperand behind.endsOperand
  have alone : Stands (loosest levels) (operatorsOf levels) (words tokens)
      (nest levels (.single sketch)) := by
    rw [same]
    exact nest_stands levels_climb (fun _ : Unit => operand.words) (fun _ => sketch) (.single ()) stands
  obtain ⟨tree, treeSame, fits, read⟩ := parseExpression_of_level lexes alone
  obtain ⟨inner, rfl, innerFits, innerRead⟩ := nest_single_read levels_areLevels treeSame fits
  rw [operand.parsed, innerRead] at read
  refine ⟨_, stands, reads_of_read innerFits ?_⟩
  cases result : Ast.readExpr (spaced operand.words) inner with
  | error =>
      rw [result] at read
      cases read
  | ok expr =>
      rw [result] at read
      cases read
      rfl

/-- A text of operands with operators between them is read as the table of levels says,
whatever stands between the tokens. -/
theorem parseExpression_of_row {source : Text} {operands : Operands Operand}
    (rows : Row source (operands.words Operand.words)) :
    ∃ expr, parseExpression source = .ok expr ∧
      expr.unlocated = (operands.map fun operand => operand.value.unlocated).group precedence := by
  obtain ⟨sketch, facts⟩ := Classical.axiomOfChoice operand_stands
  obtain ⟨tokens, lexes, same⟩ := rows.lexes []
  have stands := nest_stands levels_climb Operand.words sketch operands
    (.of_forall mem_operatorsOf_levels fun operand => (facts operand).1)
  rw [← same] at stands
  obtain ⟨tree, treeSame, -, read⟩ := parseExpression_of_level lexes stands
  obtain ⟨expr, exprRead, unlocated⟩ := nest_reads levels_areLevels
    (.of_forall (fun _ => trivial) fun operand => (facts operand).2) _ tree treeSame
  rw [read, exprRead]
  exact ⟨expr, rfl, unlocated⟩

/-- Operands with operators between them, written with a blank between the tokens, are an
expression. Apart from spans it is what the table of levels makes of the operands. -/
theorem parseExpression_grouped (operands : Operands Operand) :
    ∃ expr, parseExpression (spaced (operands.words Operand.words)) = .ok expr ∧
      expr.unlocated = (operands.map fun operand => operand.value.unlocated).group precedence :=
  parseExpression_of_row (spaced_row (operands.forall_mem_words symbol_lexeme Operand.tokens)).1

theorem sumWithProduct_grouped : ∃ negative call name expr,
    parseExpression "- 1".toList = .ok negative ∧
    parseExpression "f ( )".toList = .ok call ∧
    parseExpression "( y )".toList = .ok name ∧
    parseExpression "- 1 + f ( ) * ( y )".toList = .ok expr ∧
    expr.unlocated =
      .chain negative.unlocated
        [⟨.plus, .chain call.unlocated [⟨.times, name.unlocated, .origin⟩] .origin, .origin⟩]
        .origin := by
  have digit : Lexeme ['1'] [] :=
    .integer nofun (List.forall_mem_singleton.mpr rfl) (Text.stops_nil _)
  have symbol : ∀ char ∈ singles, Lexeme [char] [] :=
    fun _ member => .symbol member (Text.stops_nil _)
  obtain ⟨negative, negativeParsed⟩ := exists_value_of_isOk
    (show (parseExpression "- 1".toList).isOk by decide +kernel)
  obtain ⟨call, callParsed⟩ := exists_value_of_isOk
    (show (parseExpression "f ( )".toList).isOk by decide +kernel)
  obtain ⟨name, nameParsed⟩ := exists_value_of_isOk
    (show (parseExpression "( y )".toList).isOk by decide +kernel)
  let first : Operand :=
    { words := [['-'], ['1']]
      value := negative
      tokens := by simpa using ⟨symbol '-' (by decide), digit⟩
      form := by decide +kernel
      parsed := negativeParsed }
  let second : Operand :=
    { words := [['f'], ['('], [')']]
      value := call
      tokens := by
        simpa using ⟨lexeme_of_isSpelled rfl, symbol '(' (by decide), symbol ')' (by decide)⟩
      form := by decide +kernel
      parsed := callParsed }
  let third : Operand :=
    { words := [['('], ['y'], [')']]
      value := name
      tokens := by
        simpa using ⟨symbol '(' (by decide), lexeme_of_isSpelled rfl, symbol ')' (by decide)⟩
      form := by decide +kernel
      parsed := nameParsed }
  obtain ⟨expr, parsed, grouped⟩ :=
    parseExpression_grouped (.cons first .plus (.cons second .times (.single third)))
  exact ⟨negative, call, name, expr, negativeParsed, callParsed, nameParsed, parsed, grouped⟩

end FlowScript
