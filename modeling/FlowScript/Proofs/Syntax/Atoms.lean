import FlowScript.Proofs.Grammar.Alone
import FlowScript.Proofs.Syntax.Settling.Expressions
import FlowScript.Proofs.Syntax.Parsing

/-!
# Names and literals by themselves

A text that is a name or a literal is an expression, and the expression is what the text
says. In particular numbers and durations are read back from the text they are shown as.
-/

set_option autoImplicit false

namespace FlowScript

open FlowScript.Grammar

/-- The span of a whole text. -/
def Text.extent (text : Text) : Span := text.span 0 text.byteSize

theorem Text.slice_whole (text : Text) : text.slice 0 text.byteSize = String.ofList text := by
  have whole := slice?_append [] text []
  rw [List.append_nil, List.nil_append, byteSize_nil] at whole
  rw [slice, whole]
  rfl

/-! ## What is read from one node -/

namespace Ast

variable {source : Text}

theorem textOf_of_sketch {tree : Tree} {name : Rule} {content : Text} {inside : List Sketch}
    (same : tree.sketch source = .node name content inside) (own : name.isContent) :
    textOf source tree = String.ofList content := by
  obtain ⟨start, stop, children, rfl, covered, -⟩ := sketch_eq_node same
  rw [contentOf, if_pos own] at covered
  exact congrArg String.ofList covered

/-- Nodes around one node leave it to that one what is read. -/
theorem readExpr_around (start stop : Nat) (form : Tree) :
    readExpr source ([Rule.expression, .logical, .equality, .relational, .additive,
      .multiplicative, .unary, .primary].foldr
        (fun name inner => .node name start stop [inner]) form) = readExpr source form := by
  simp only [List.foldr]
  change readExpr source (.node .logical start stop _) = _
  rw [readExpr_level_single rfl, readExpr_level_single rfl, readExpr_level_single rfl,
    readExpr_level_single rfl, readExpr_level_single rfl]
  rfl

end Ast

section

variable {text : Text}

/-- A text that is an operand of one node is what is read from that node. -/
theorem parseExpression_of_primary (guard : atomBars.Guard text) {form : Ast.Tree}
    (primary : Consumes (.rule .primary) text [.node .primary 0 text.byteSize [form]]) :
    parseExpression text = (Ast.readExpr text form).mapError .unreadable := by
  obtain ⟨tokens, yields⟩ := (primary.expression guard).expressionOnly guard
  obtain ⟨tree, only, -, found⟩ := yields.parseTree rfl
  cases only
  have read := @Ast.readExpr_around text 0 text.byteSize form
  unfold parseExpression
  rw [found, ← read]
  rfl

theorem parseExpression_literal (guard : atomBars.Guard text) {kind : Sketch} {value : Literal}
    (takes : Takes (.rule .literal) text [] [.node .literal [] [kind]])
    (read : ∀ tree : Ast.Tree, tree.sketch text = kind →
      Ast.readLiteralValue text tree = .ok value) :
    parseExpression text = .ok (.literal value text.extent) := by
  obtain ⟨children, literal, same⟩ := takes.consumes rfl
  obtain ⟨child, rfl, sketched⟩ := sketchAll_eq_single same
  have expr : Ast.readExpr text (.node .literal 0 text.byteSize [child]) =
      .ok (.literal value text.extent) := by
    change Ast.readLiteral text text.extent child = _
    rw [Ast.readLiteral, read child sketched]
    rfl
  rw [parseExpression_of_primary guard (.primary_literal guard literal), expr]
  rfl

end

/-! ## Words -/

section

variable {word : Text}

theorem word_guard (spelled : isSpelled word)
    (free : ∀ spelling ∈ ["await", "try", "not"], word ≠ spelling.toList) :
    atomBars.Guard word := by
  have inWord := isWordChar_of_isSpelled spelled
  have refuses : ∀ spelling ∈ ["await", "try", "not"], Refuses (Rule.wholeWord spelling) word := by
    intro spelling member
    have words : ∀ spelling ∈ ["await", "try", "not"], isSpelled spelling.toList := by decide
    have differs := refuses_wholeWord inWord (Text.stops_nil _)
      (isWordChar_of_isSpelled (words spelling member)) (free spelling member)
    rwa [List.append_nil] at differs
  cases word with
  | nil => cases spelled
  | cons char chars =>
      have start := inWord char List.mem_cons_self
      refine atomBars_guard (atToken_of_plain (isPlain_of_isWordChar start))
        (Text.stops_cons.mpr (not_isMark_of_isWordChar start)) ?_
      intro name member
      simp only [openings, List.mem_cons, List.not_mem_nil, or_false] at member
      rcases member with rfl | rfl | rfl
      · exact Refuses.misses rfl (refuses "await" (by decide))
      · exact Refuses.misses rfl (refuses "try" (by decide))
      · exact Refuses.misses rfl (refuses "not" (by decide))

/-- A word that is not reserved is a name. -/
theorem reads_identifier (spelled : isSpelled word)
    (free : ∀ spelling ∈ reservedWords, word ≠ spelling.toList) :
    Reads (flow.rules .identifier).body word [] := by
  have reserved : Refuses (Rule.wholeWordOf reservedWords) (word ++ []) :=
    refuses_wholeWordOf (isWordChar_of_isSpelled spelled) (Text.stops_nil _)
      (fun spelling member => isWordChar_of_isSpelled
        (List.all_eq_true.mp reservedWords_spelled spelling member)) free
  cases word with
  | nil => cases spelled
  | cons char chars =>
      obtain ⟨start, others⟩ := isSpelled_cons.mp spelled
      exact .sequence (.absent reserved)
        (.sequence (.oneOf start) (.manyOneOf others (Text.stops_nil _)))

theorem parseExpression_name (spelled : isSpelled word)
    (free : ∀ spelling ∈ reservedWords, word ≠ spelling.toList) :
    parseExpression word =
      .ok (.path ⟨⟨String.ofList word, word.extent⟩, [], word.extent⟩) := by
  have reserved : ∀ spelling ∈ ["await", "try", "not"], spelling ∈ reservedWords := by decide
  have guard := word_guard spelled fun spelling member => free spelling (reserved spelling member)
  have truth : Refuses (flow.rules .boolean).body (word ++ []) := by
    have values : ∀ spelling ∈ ["true", "false"], spelling ∈ reservedWords ∧
        isSpelled spelling.toList := by decide
    exact refuses_wholeWordOf (isWordChar_of_isSpelled spelled) (Text.stops_nil _)
      (fun spelling member => isWordChar_of_isSpelled (values spelling member).2)
      fun spelling member => free spelling (values spelling member).1
  have literal := misses_literal_word spelled truth
  rw [List.append_nil] at literal
  have takes : Takes (.rule .identifier) word [] [.node .identifier word []] :=
    Reads.takes rfl (reads_identifier spelled free)
  obtain ⟨children, identifier, none⟩ := takes.consumes rfl
  cases sketchAll_eq_nil none
  have path : Consumes (.rule .identifierPath) word _ :=
    .level rfl rfl rfl (by decide) identifier
  rw [parseExpression_of_primary guard (.primary_path guard literal path), ← Text.slice_whole word]
  rfl

theorem parseExpression_boolean (value : Bool) :
    parseExpression (toString value).toList =
      .ok (.literal (.boolean value) (Text.extent (toString value).toList)) := by
  have words : ∀ spelling ∈ ["true", "false"], isSpelled spelling.toList := by decide
  have apart : ∀ spelling ∈ ["true", "false"], ∀ other ∈ ["true", "false"],
      other.toList <+: spelling.toList → other = spelling := by decide
  have member : toString value ∈ ["true", "false"] := by cases value <;> decide
  have spelled := words _ member
  have free : ∀ spelling ∈ ["await", "try", "not"], (toString value).toList ≠ spelling.toList := by
    cases value <;> decide
  have reads : Reads (flow.rules .boolean).body (toString value).toList [] :=
    reads_wholeWordOf (Text.stops_nil _)
      (fun spelling member => isWordChar_of_isSpelled (words spelling member)) member
      (apart _ member) rfl
  have takes : Takes (.rule .literal) (toString value).toList []
      [.node .literal [] [.node .boolean (toString value).toList []]] :=
    takes_literal_boolean spelled reads
  refine parseExpression_literal (word_guard spelled free) takes ?_
  intro tree same
  obtain ⟨start, stop, children, rfl, -, -⟩ := sketch_eq_node same
  change Except.ok (Literal.boolean (Ast.textOf _ _ == "true")) = _
  rw [Ast.textOf_of_sketch same rfl, String.ofList_toList]
  cases value <;> rfl

/-- All other reserved words are no expressions. -/
theorem parseExpression_reserved : ∀ spelling ∈ reservedWords, spelling ≠ "true" →
    spelling ≠ "false" → ∃ error, parseExpression spelling.toList = .error error := by
  have failing : ∀ spelling ∈ reservedWords,
      spelling = "true" ∨ spelling = "false" ∨ (parseExpression spelling.toList).isOk = false := by
    decide +kernel
  intro spelling member notTrue notFalse
  have failed := ((failing spelling member).resolve_left notTrue).resolve_left notFalse
  cases parsed : parseExpression spelling.toList with
  | error error => exact ⟨error, rfl⟩
  | ok expr =>
      rw [parsed] at failed
      cases failed

end

/-! ## Numbers and durations -/

section

variable {text digits : Text}

/-- What starts neither like a word nor like a symbol is not kept from being a literal. -/
theorem literal_guard (token : AtToken text) (noMark : text.Stops isMark)
    (noWord : text.Stops isWordStart) : atomBars.Guard text := by
  have leaves : ∀ name ∈ openings, name.isLeaf ∧ name ≠ .literal := by decide
  exact atomBars_guard token noMark fun name member =>
    leaf_misses (leaves name member).1 (leaves name member).2 noWord

theorem digits_guard (nonempty : digits ≠ []) (inside : ∀ char ∈ digits, char.isDigit)
    (more : Text) : atomBars.Guard (digits ++ more) := by
  refine literal_guard (atToken_of_digits nonempty inside) ?_
    (stops_wordStart_digits nonempty inside).2
  cases digits with
  | nil => exact absurd rfl nonempty
  | cons char digits =>
      exact Text.stops_cons.mpr (not_isMark_of_isWordChar
        (isWordChar_of_isDigit (inside char List.mem_cons_self)))

theorem parseExpression_digits (nonempty : digits ≠ []) (inside : ∀ char ∈ digits, char.isDigit)
    (fits : Ast.digitsValue digits ≤ maxSigned) :
    parseExpression digits =
      .ok (.literal (.integer (Int64.ofInt (Ast.digitsValue digits))) digits.extent) := by
  have guard := digits_guard nonempty inside []
  rw [List.append_nil] at guard
  have takes : Takes (.rule .literal) digits [] [.node .literal [] [.node .integer digits []]] :=
    takes_literal_integer nonempty inside (Text.stops_nil _) nofun
  refine parseExpression_literal guard takes ?_
  intro tree same
  obtain ⟨start, stop, children, rfl, -, -⟩ := sketch_eq_node same
  change Ast.readInteger (Ast.textOf _ _) = _
  rw [Ast.textOf_of_sketch same rfl, Ast.readInteger_eq, String.toList_ofList,
    if_neg (Nat.not_lt.mpr fits)]

theorem parseExpression_count {unit : TimeUnit} (nonempty : digits ≠ [])
    (inside : ∀ char ∈ digits, char.isDigit) (fits : Ast.digitsValue digits ≤ maxWord) :
    parseExpression (digits ++ unit.name.toList) =
      .ok (.literal (.duration ⟨UInt64.ofNat (Ast.digitsValue digits), unit⟩)
        (Text.extent (digits ++ unit.name.toList))) := by
  have member : unit.name ∈ unitWords := by cases unit <;> decide
  refine parseExpression_literal (digits_guard nonempty inside _)
    (takes_literal_duration nonempty inside member (Text.stops_nil _)) ?_
  intro tree same
  obtain ⟨start, stop, children, rfl, -, parts⟩ := sketch_eq_node same
  obtain ⟨count, _, rfl, countSame, others⟩ := sketchAll_eq_cons parts
  obtain ⟨suffix, rfl, suffixSame⟩ := sketchAll_eq_single others
  change Ast.readDuration (Ast.textOf _ _) (Ast.textOf _ _) = _
  rw [Ast.textOf_of_sketch countSame rfl, Ast.textOf_of_sketch suffixSame rfl,
    String.ofList_toList, Ast.readDuration_eq (TimeUnit.ofSuffix?_name unit),
    String.toList_ofList, if_neg (Nat.not_lt.mpr fits)]

/-- Decimal digits are read back as the number that they are the digits of. -/
theorem digitsValue_toDigits (number : Nat) :
    Ast.digitsValue (Nat.toDigits 10 number) = number := by
  have same : Ast.digitsValue (Nat.toDigits 10 number) =
      Nat.ofDigitChars 10 (Nat.toDigits 10 number) 0 := by
    simp only [Ast.digitsValue, Nat.ofDigitChars_eq_foldl, Nat.mul_comm 10]
  rw [same, Nat.ofDigitChars_ten_toDigits]

theorem isDigit_of_mem_decimal {number : Nat} :
    ∀ char ∈ Nat.toDigits 10 number, char.isDigit :=
  fun _ => Nat.isDigit_of_mem_toDigits (by decide) (by decide)

end

/-! ## Strings -/

section

variable {body : Text}

theorem quote_guard (rest : Text) : atomBars.Guard ('\'' :: rest) :=
  literal_guard (atToken_of_plain (by decide)) (Text.stops_cons.mpr (by decide))
    (Text.stops_cons.mpr (by decide))

theorem parseExpression_single (nonempty : body ≠ []) (absent : '\'' ∉ body) :
    parseExpression ('\'' :: (body ++ ['\''])) =
      .ok (.literal (.string (String.ofList body)) (Text.extent ('\'' :: (body ++ ['\''])))) := by
  refine parseExpression_literal (quote_guard _) (takes_literal_single nonempty absent) ?_
  intro tree same
  obtain ⟨start, stop, children, rfl, -, parts⟩ := sketch_eq_node same
  obtain ⟨content, rfl, contentSame⟩ := sketchAll_eq_single parts
  change Except.ok (Literal.string (Ast.textOf _ _)) = _
  rw [Ast.textOf_of_sketch contentSame rfl]

/-- The first three quotes in a row behind the text are the closing ones. -/
theorem closesString_apart (absent : ¬closesString <:+: body)
    (last : body.getLast? ≠ some '\'') : ¬closesString <:+: body ++ ['\'', '\''] := by
  rintro ⟨before, after, whole⟩
  have ends : ∀ front : Text, body ≠ front ++ ['\''] := by
    rintro front rfl
    exact last List.getLast?_concat
  -- Behind the three quotes there may be none, one or both of the two that were added.
  rcases List.eq_nil_or_concat after with rfl | ⟨after, char, rfl⟩
  · have split : body ++ ['\'', '\''] = (before ++ ['\'']) ++ ['\'', '\''] := by
      simpa [closesString] using whole.symm
    exact ends _ (List.append_cancel_right split)
  · have split : (body ++ ['\'']) ++ ['\''] = (before ++ closesString ++ after) ++ [char] := by
      simpa using whole.symm
    have split := (List.append_inj' split rfl).1
    rcases List.eq_nil_or_concat after with rfl | ⟨after, char, rfl⟩
    · have split : body ++ ['\''] = (before ++ ['\'', '\'']) ++ ['\''] := by
        simpa [closesString] using split
      have same : body = (before ++ ['\'']) ++ ['\''] := by
        simpa using List.append_cancel_right split
      exact ends _ same
    · have split : body ++ ['\''] = (before ++ closesString ++ after) ++ [char] := by
        simpa using split
      exact absent ⟨before, after, (List.append_inj' split rfl).1.symm⟩

theorem parseExpression_triple (absent : ¬closesString <:+: body)
    (last : body.getLast? ≠ some '\'') :
    parseExpression (closesString ++ (body ++ closesString)) =
      .ok (.literal (.string (String.ofList body))
        (Text.extent (closesString ++ (body ++ closesString)))) := by
  refine parseExpression_literal (quote_guard _)
    (takes_literal_triple (closesString_apart absent last)) ?_
  intro tree same
  obtain ⟨start, stop, children, rfl, -, parts⟩ := sketch_eq_node same
  obtain ⟨content, rfl, contentSame⟩ := sketchAll_eq_single parts
  change Except.ok (Literal.string (Ast.textOf _ _)) = _
  rw [Ast.textOf_of_sketch contentSame rfl]

end

/-! ## All atoms -/

/-- A text that is, as a whole, a name, a truth value, the decimal form of an integer without
a sign, the form a duration is shown in or a quoted string is the expression of that name or
value, with the span of the text. No other reserved word is an expression. -/
theorem parseExpression_atoms :
    (∀ word : Text, isSpelled word → (∀ spelling ∈ reservedWords, word ≠ spelling.toList) →
      parseExpression word =
        .ok (.path ⟨⟨String.ofList word, word.extent⟩, [], word.extent⟩)) ∧
    (∀ value : Bool, parseExpression (toString value).toList =
      .ok (.literal (.boolean value) (Text.extent (toString value).toList))) ∧
    (∀ spelling ∈ reservedWords, spelling ≠ "true" → spelling ≠ "false" →
      ∃ error, parseExpression spelling.toList = .error error) ∧
    (∀ number : Nat, number ≤ maxSigned → ∃ value : Int64, value.toInt = number ∧
      parseExpression (toString number).toList =
        .ok (.literal (.integer value) (Text.extent (toString number).toList))) ∧
    (∀ duration : Duration, parseExpression duration.render.toList =
      .ok (.literal (.duration duration) (Text.extent duration.render.toList))) ∧
    (∀ body : Text, body ≠ [] → '\'' ∉ body → parseExpression ('\'' :: (body ++ ['\''])) =
      .ok (.literal (.string (String.ofList body)) (Text.extent ('\'' :: (body ++ ['\'']))))) ∧
    ∀ body : Text, ¬closesString <:+: body → body.getLast? ≠ some '\'' →
      parseExpression (closesString ++ (body ++ closesString)) =
        .ok (.literal (.string (String.ofList body))
          (Text.extent (closesString ++ (body ++ closesString)))) := by
  refine ⟨fun _ => parseExpression_name, parseExpression_boolean, parseExpression_reserved, ?_, ?_,
    fun _ => parseExpression_single, fun _ => parseExpression_triple⟩
  · intro number fits
    rw [Nat.toString_eq_ofList_toDigits, String.toList_ofList]
    refine ⟨Int64.ofInt number, ?_, ?_⟩
    · exact toInt_of_signedOfInt? (if_pos (by omega))
    · have parsed := parseExpression_digits Nat.toDigits_ne_nil isDigit_of_mem_decimal
        ((digitsValue_toDigits number).symm ▸ fits)
      rwa [digitsValue_toDigits] at parsed
  · intro duration
    have fits : duration.count.toNat ≤ maxWord := Nat.le_pred_of_lt duration.count.toNat_lt
    have parsed := @parseExpression_count _ duration.unit Nat.toDigits_ne_nil
      isDigit_of_mem_decimal ((digitsValue_toDigits duration.count.toNat).symm ▸ fits)
    rw [digitsValue_toDigits, UInt64.ofNat_toNat] at parsed
    rw [Duration.render, String.toList_append, Nat.toString_eq_ofList_toDigits,
      String.toList_ofList]
    exact parsed

/-- A name that a reserved word starts, and strings with the marks of comments, quotes, line
ends and letters of two bytes in them. -/
theorem awkwardAtoms_parse :
    (∃ span, parseExpression "delayed".toList = .ok (.path ⟨⟨"delayed", span⟩, [], span⟩)) ∧
    (∃ span, parseExpression "'// é\n'".toList = .ok (.literal (.string "// é\n") span)) ∧
    ∃ span, parseExpression "'''/* ''é\r\n'''".toList =
      .ok (.literal (.string "/* ''é\r\n") span) := by
  obtain ⟨name, -, -, -, -, single, triple⟩ := parseExpression_atoms
  exact ⟨⟨_, name "delayed".toList (by decide) (by decide)⟩,
    ⟨_, single "// é\n".toList (by decide) (by decide)⟩,
    ⟨_, triple "/* ''é\r\n".toList (by decide +kernel) (by decide)⟩⟩

end FlowScript
