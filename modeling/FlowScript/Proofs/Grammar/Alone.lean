import FlowScript.Proofs.Grammar.Tokens

/-!
# Texts of one part

A text that a rule reads from its first character to its last one is read by the rules
around that one as well. Nothing comes before it, and nothing is left that an operator, a
point or a list of arguments could start with. Every rule on the way leaves a node for the
whole text.
-/

set_option autoImplicit false

namespace FlowScript.Grammar

open Expression hiding rule

/-- The expression matches the whole text and leaves these nodes. -/
def Consumes (expression : Expression Rule) (text : Text) (nodes : List (Node Rule)) : Prop :=
  ∃ tokens, flow.Yields expression .spaced (.after [] text) (some ⟨nodes, .after text [], tokens⟩)

/-! ## What cannot come -/

/-- At the end of a text no symbol and no other token comes. -/
def endBars : Bars where
  text symbol := !symbol.isEmpty
  leaf _ := true
  comes _ := false

theorem endBars_guard : endBars.Guard [] where
  token := atToken_nil
  text symbol barred := by
    rw [List.prefix_nil]
    rintro rfl
    cases barred
  leaf _ leaf _ := leaf_misses_nil leaf
  comes _ comes := by cases comes

/-- The words before an operand. -/
def openings : List Rule := [.keyword .awaitWord, .keyword .tryWord, .unaryOperator .not]

/-- Neither a symbol nor a word before an operand comes. -/
def atomBars : Bars where
  text symbol := symbols.contains symbol
  leaf name := openings.contains name
  comes _ := false

section

variable {text : Text}

theorem atomBars_guard (token : AtToken text) (noMark : text.Stops isMark)
    (words : ∀ name ∈ openings, Misses (.rule name) text) : atomBars.Guard text where
  token := token
  text symbol barred starts := by
    have member := List.contains_iff_mem.mp barred
    cases text with
    | nil =>
        have nonempty : ∀ symbol ∈ symbols, endBars.text symbol := by decide
        exact endBars_guard.text symbol (nonempty symbol member) starts
    | cons char rest =>
        have mark := isMark_of_front member starts
        exact absurd (mark.symm.trans (Text.stops_cons.mp noMark)) (by decide)
  leaf name _ barred := words name (List.contains_iff_mem.mp barred)
  comes _ comes := by cases comes

end

/-! ## From rule to rule -/

namespace Consumes

variable {text : Text} {nodes : List (Node Rule)} {node : Node Rule}

/-- Every rule leaves a node for the whole text. -/
theorem rule {name : Rule} (spaced : (flow.rules name).mode = none)
    (captured : (flow.rules name).captured) (body : Consumes (flow.rules name).body text nodes) :
    Consumes (.rule name) text [.node name 0 text.byteSize nodes] := by
  obtain ⟨tokens, yields⟩ := body
  have closed : flow.Yields (.rule name) .spaced (.after [] text)
      (some (.close name (flow.rules name) .spaced (.after [] text)
        ⟨nodes, .after text [], tokens⟩)) := by
    refine .rule ?_
    rw [spaced]
    exact yields
  exact ⟨tokens, by simpa [Match.close, spaced, captured] using closed⟩

/-- What may come behind the text is not there. -/
theorem last {first second : Expression Rule} (consumes : Consumes first text nodes)
    (skips : second.fate endBars = .skips) : Consumes (.sequence first second) text nodes := by
  obtain ⟨tokens, yields⟩ := consumes
  have behind : Passes second [] := skips_of_fate endBars_guard.laws skips
  have whole := yields.sequence (atToken_nil.gap text) (behind text)
  refine ⟨tokens, ?_⟩
  simpa [Match.append, Match.empty] using whole

/-- What may come before the text is not there. -/
theorem front {bars : Bars} {first second : Expression Rule} (guard : bars.Guard text)
    (consumes : Consumes second text nodes) (skips : first.fate bars = .skips) :
    Consumes (.sequence first second) text nodes := by
  obtain ⟨tokens, yields⟩ := consumes
  have before : Passes first text := skips_of_fate guard.laws skips
  have whole := (before []).sequence (guard.token.gap []) yields
  refine ⟨tokens, ?_⟩
  simpa [Match.append, Match.empty] using whole

theorem other {first second : Expression Rule} (misses : Misses first text)
    (consumes : Consumes second text nodes) : Consumes (.choice first second) text nodes := by
  obtain ⟨tokens, yields⟩ := consumes
  exact ⟨tokens, .choiceElse (misses []) yields⟩

theorem choice {first : Expression Rule} (consumes : Consumes first text nodes)
    (second : Expression Rule) : Consumes (.choice first second) text nodes := by
  obtain ⟨tokens, yields⟩ := consumes
  exact ⟨tokens, .choice yields⟩

/-- Neither of the two rules that start with a keyword reads an atom. -/
theorem after_keywords (guard : atomBars.Guard text) {others : Expression Rule}
    (consumes : Consumes others text nodes) :
    Consumes (.choice (.rule .awaitExpression) (.choice (.rule .tryExpression) others)) text
      nodes := by
  have awaits : Misses (.rule .awaitExpression) text := refuses_of_fate guard.laws (by decide)
  have tries : Misses (.rule .tryExpression) text := refuses_of_fate guard.laws (by decide)
  exact .other awaits (.other tries consumes)

theorem primary_literal (guard : atomBars.Guard text) (literal : Consumes (.rule .literal) text [node]) :
    Consumes (.rule .primary) text [.node .primary 0 text.byteSize [node]] :=
  .rule rfl rfl (.after_keywords guard (literal.choice _))

/-- A path that is no literal is no call either, since no arguments come behind it. -/
theorem primary_path (guard : atomBars.Guard text) (literal : Misses (.rule .literal) text)
    (path : Consumes (.rule .identifierPath) text [node]) :
    Consumes (.rule .primary) text [.node .primary 0 text.byteSize [node]] := by
  have arguments : Misses (.rule .arguments) [] := refuses_of_fate endBars_guard.laws (by decide)
  have call : flow.Yields (.rule .functionCall) .spaced (.after [] text) none := by
    obtain ⟨tokens, yields⟩ := path
    exact .ruleFails (yields.sequenceBreaks (atToken_nil.gap text) (arguments text))
  obtain ⟨tokens, yields⟩ := path
  refine .rule rfl rfl (.after_keywords guard (.other literal ?_))
  exact ⟨tokens, .choiceElse call (.choice yields)⟩

/-- No operator comes behind the text, so a level leaves what its operand leaves. -/
theorem level {level operand : Rule} {round : Expression Rule}
    (spaced : (flow.rules level).mode = none) (captured : (flow.rules level).captured)
    (body : (flow.rules level).body = .sequence (.rule operand) (.many round))
    (skips : (Expression.many round).fate endBars = .skips)
    (consumes : Consumes (.rule operand) text nodes) :
    Consumes (.rule level) text [.node level 0 text.byteSize nodes] :=
  .rule spaced captured (body ▸ consumes.last skips)

theorem expression (guard : atomBars.Guard text) (primary : Consumes (.rule .primary) text [node]) :
    Consumes (.rule .expression) text
      [[.expression, .logical, .equality, .relational, .additive, .multiplicative, .unary].foldr
        (fun name inner => .node name 0 text.byteSize [inner]) node] := by
  have unary : Consumes (.rule .unary) text _ :=
    .rule rfl rfl (.front guard primary (by decide))
  have multiplicative : Consumes (.rule .multiplicative) text _ :=
    .level rfl rfl rfl (by decide) unary
  have additive : Consumes (.rule .additive) text _ :=
    .level rfl rfl rfl (by decide) multiplicative
  have relational : Consumes (.rule .relational) text _ :=
    .level rfl rfl rfl (by decide) additive
  have equality : Consumes (.rule .equality) text _ :=
    .level rfl rfl rfl (by decide) relational
  have logical : Consumes (.rule .logical) text _ :=
    .level rfl rfl rfl (by decide) equality
  exact .rule rfl rfl logical

/-- The text is a whole input. -/
theorem expressionOnly (guard : atomBars.Guard text)
    (expression : Consumes (.rule .expression) text [node]) :
    Consumes (.rule .expressionOnly) text [.node .expressionOnly 0 text.byteSize [node]] := by
  obtain ⟨tokens, yields⟩ := expression
  have ends : flow.Yields (.rule .endOfInput) .spaced (.after text [])
      (some (.close .endOfInput (flow.rules .endOfInput) .spaced (.after text [])
        (.empty (.after text [])))) := .rule (.endOfInput rfl)
  have whole := yields.sequence (atToken_nil.gap text) ends
  have body : Consumes (.sequence (.rule .expression) (.rule .endOfInput)) text [node] :=
    ⟨_, whole⟩
  exact .rule rfl rfl (.front guard body (by decide))

end Consumes

/-- A rule that takes the whole text leaves a node for all of it. -/
theorem Takes.consumes {name : Rule} {text content : Text} {inside : List Sketch}
    (captured : (flow.rules name).captured)
    (takes : Takes (.rule name) text [] [.node name content inside]) :
    ∃ children, Consumes (.rule name) text [.node name 0 text.byteSize children] ∧
      sketchAll text children = inside := by
  obtain ⟨nodes, yields, same⟩ := takes []
  rw [List.append_nil, List.nil_append] at yields same
  obtain ⟨node, rfl, sketched⟩ := sketchAll_eq_single same
  obtain ⟨start, stop, children, rfl, -, inner⟩ := sketch_eq_node sketched
  suffices ends : start = 0 ∧ stop = text.byteSize by
    obtain ⟨rfl, rfl⟩ := ends
    exact ⟨children, ⟨_, yields⟩, inner⟩
  generalize whole : some _ = result at yields
  cases yields with
  | ruleFails => cases whole
  | rule body =>
      have nodes := congrArg Match.nodes (Option.some.inj whole)
      have cursor := congrArg Match.cursor (Option.some.inj whole)
      simp only [Match.close, if_pos (show Mode.spaced ≠ .sealed ∧ _ from ⟨by decide, captured⟩)]
        at nodes cursor
      rw [← cursor] at nodes
      cases nodes
      exact ⟨rfl, rfl⟩

end FlowScript.Grammar
