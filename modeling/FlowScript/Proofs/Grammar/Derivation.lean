import FlowScript.Proofs.Grammar.Scan

/-!
# Matching rows of tokens

`Derives` says what an expression does with a row of tokens, where trivia and
characters no longer matter. `Expression.fate` computes what an expression does from
what cannot come next.
-/

set_option autoImplicit false

namespace FlowScript.Grammar

open Expression hiding rule

/-- The sketches of a rule, from those of its body. -/
def Rule.wrap (name : Rule) (sketches : List Sketch) : List Sketch :=
  if (flow.rules name).captured then [.node name [] sketches] else sketches

/-- What the expression does with the words: a match with the words left, or none. -/
inductive Derives : Expression Rule → List Text → Option (List Sketch × List Text) → Prop where
  | empty {words : List Text} : Derives .empty words (some ([], words))
  | text {symbol : Text} {words : List Text} :
      Derives (.text symbol) (symbol :: words) (some ([], words))
  | textFails {symbol : Text} {words : List Text} :
      words.head? ≠ some symbol → Derives (.text symbol) words none
  | endOfInput : Derives .endOfInput [] (some ([], []))
  | endOfInputFails {words : List Text} : words ≠ [] → Derives .endOfInput words none
  | leaf {name : Rule} {word : Text} {words : List Text} {sketches : List Sketch} :
      name.isLeaf → name.reading word = some sketches →
      Derives (.rule name) (word :: words) (some (sketches, words))
  | leafFails {name : Rule} {words : List Text} :
      name.isLeaf → (∀ word ∈ words.head?, name.reading word = none) →
      Derives (.rule name) words none
  | rule {name : Rule} {words rest : List Text} {sketches : List Sketch} :
      name.isLeaf = false → Derives (flow.rules name).body words (some (sketches, rest)) →
      Derives (.rule name) words (some (name.wrap sketches, rest))
  | ruleFails {name : Rule} {words : List Text} :
      name.isLeaf = false → Derives (flow.rules name).body words none →
      Derives (.rule name) words none
  | sequence {first second : Expression Rule} {words middle rest : List Text}
      {left right : List Sketch} :
      Derives first words (some (left, middle)) → Derives second middle (some (right, rest)) →
      Derives (.sequence first second) words (some (left ++ right, rest))
  | sequenceFails {first second : Expression Rule} {words : List Text} :
      Derives first words none → Derives (.sequence first second) words none
  | sequenceBreaks {first second : Expression Rule} {words middle : List Text}
      {left : List Sketch} :
      Derives first words (some (left, middle)) → Derives second middle none →
      Derives (.sequence first second) words none
  | choice {first second : Expression Rule} {words rest : List Text} {left : List Sketch} :
      Derives first words (some (left, rest)) →
      Derives (.choice first second) words (some (left, rest))
  | choiceElse {first second : Expression Rule} {words : List Text}
      {result : Option (List Sketch × List Text)} :
      Derives first words none → Derives second words result →
      Derives (.choice first second) words result
  | optional {body : Expression Rule} {words rest : List Text} {found : List Sketch} :
      Derives body words (some (found, rest)) →
      Derives (.optional body) words (some (found, rest))
  | optionalSkips {body : Expression Rule} {words : List Text} :
      Derives body words none → Derives (.optional body) words (some ([], words))
  | many {body : Expression Rule} {words middle rest : List Text} {found more : List Sketch} :
      Derives body words (some (found, middle)) →
      Derives (.many body) middle (some (more, rest)) →
      Derives (.many body) words (some (found ++ more, rest))
  | manyEnds {body : Expression Rule} {words : List Text} :
      Derives body words none → Derives (.many body) words (some ([], words))
  | absent {symbol : Text} {words : List Text} :
      (∀ word ∈ words.head?, ¬symbol <+: word) →
      Derives (.absent (.text symbol)) words (some ([], words))
  | absentFails {symbol word : Text} {words : List Text} :
      symbol <+: word → Derives (.absent (.text symbol)) (word :: words) none

theorem Derives.unique {expression : Expression Rule} {words : List Text}
    {result other : Option (List Sketch × List Text)} (derives : Derives expression words result)
    (otherDerives : Derives expression words other) : result = other := by
  induction derives generalizing other with
  | empty => cases otherDerives; rfl
  | text =>
      cases otherDerives with
      | text => rfl
      | textFails differs => exact absurd rfl differs
  | textFails differs =>
      cases otherDerives with
      | text => exact absurd rfl differs
      | textFails => rfl
  | endOfInput =>
      cases otherDerives with
      | endOfInput => rfl
      | endOfInputFails goes => exact absurd rfl goes
  | endOfInputFails goes =>
      cases otherDerives with
      | endOfInput => exact absurd rfl goes
      | endOfInputFails => rfl
  | leaf leaf read =>
      cases otherDerives with
      | leaf _ otherRead => cases read.symm.trans otherRead; rfl
      | leafFails _ none => cases read.symm.trans (none _ rfl)
      | rule inner | ruleFails inner => cases leaf.symm.trans inner
  | leafFails leaf none =>
      cases otherDerives with
      | leaf _ read => cases read.symm.trans (none _ rfl)
      | leafFails => rfl
      | rule inner | ruleFails inner => cases leaf.symm.trans inner
  | rule inner _ ih =>
      cases otherDerives with
      | leaf leaf | leafFails leaf => cases leaf.symm.trans inner
      | rule _ body => cases ih body; rfl
      | ruleFails _ body => cases ih body
  | ruleFails inner _ ih =>
      cases otherDerives with
      | leaf leaf | leafFails leaf => cases leaf.symm.trans inner
      | rule _ body => cases ih body
      | ruleFails => rfl
  | sequence _ _ first second =>
      cases otherDerives with
      | sequence left right => cases first left; cases second right; rfl
      | sequenceFails left => cases first left
      | sequenceBreaks left right => cases first left; cases second right
  | sequenceFails _ first =>
      cases otherDerives with
      | sequence left => cases first left
      | sequenceFails | sequenceBreaks => rfl
  | sequenceBreaks _ _ first second =>
      cases otherDerives with
      | sequence left right => cases first left; cases second right
      | sequenceFails | sequenceBreaks => rfl
  | choice _ ih =>
      cases otherDerives with
      | choice left => exact ih left
      | choiceElse left => cases ih left
  | choiceElse _ _ first second =>
      cases otherDerives with
      | choice left => cases first left
      | choiceElse _ right => exact second right
  | optional _ ih =>
      cases otherDerives with
      | optional body => exact ih body
      | optionalSkips body => cases ih body
  | optionalSkips _ ih =>
      cases otherDerives with
      | optional body => cases ih body
      | optionalSkips => rfl
  | many _ _ first rest =>
      cases otherDerives with
      | many body more => cases first body; cases rest more; rfl
      | manyEnds body => cases first body
  | manyEnds _ ih =>
      cases otherDerives with
      | many body => cases ih body
      | manyEnds => rfl
  | absent differs =>
      cases otherDerives with
      | absent => rfl
      | absentFails starts => exact absurd starts (differs _ rfl)
  | absentFails starts =>
      cases otherDerives with
      | absent differs => exact absurd starts (differs _ rfl)
      | absentFails => rfl

/-! ## What cannot come next -/

/-- What is known not to come next, and the symbols known to come next. -/
structure Bars where
  text : Text → Bool
  leaf : Rule → Bool
  comes : Text → Bool

inductive Fate where
  /-- The expression does not match. -/
  | refuses
  /-- The expression matches without consuming anything. -/
  | skips
  | unknown
  deriving DecidableEq

/-- What the expression does, given what the rules in it do. -/
def Expression.fateWith (bars : Bars) (ofRule : Rule → Fate) : Expression Rule → Fate
  | .empty => .skips
  | .text symbol => if bars.text symbol then .refuses else .unknown
  | .rule name => ofRule name
  | .sequence first second =>
      match first.fateWith bars ofRule with
      | .refuses => .refuses
      | .skips => second.fateWith bars ofRule
      | .unknown => .unknown
  | .choice first second =>
      match first.fateWith bars ofRule with
      | .refuses => second.fateWith bars ofRule
      | .skips => .skips
      | .unknown => .unknown
  | .optional body =>
      match body.fateWith bars ofRule with
      | .refuses | .skips => .skips
      | .unknown => .unknown
  | .many body =>
      match body.fateWith bars ofRule with
      | .refuses => .skips
      | .skips | .unknown => .unknown
  | .absent (.text symbol) => if bars.comes symbol then .refuses else .unknown
  | .oneOf _ | .endOfInput | .manyMore _ | .absent _ => .unknown

/-- What a rule does, looking into so many rules inside each other. A rule that skips
still leaves a node. -/
def Rule.fate (bars : Bars) : Nat → Rule → Fate
  | 0, _ => .unknown
  | depth + 1, name =>
      if name.isLeaf then
        if bars.leaf name then .refuses else .unknown
      else if (flow.rules name).mode.isNone then
        match (flow.rules name).body.fateWith bars (Rule.fate bars depth) with
        | .refuses => .refuses
        | .skips | .unknown => .unknown
      else .unknown

/-- The rules of the grammar are looked into as far as this. -/
def fateDepth : Nat := 16

def Expression.fate (bars : Bars) (expression : Expression Rule) : Fate :=
  expression.fateWith bars (Rule.fate bars fateDepth)

/-- How refusing and skipping go through expressions. -/
structure Bars.Govern (bars : Bars) (refuses skips : Expression Rule → Prop) : Prop where
  empty : skips .empty
  text {symbol : Text} : bars.text symbol → refuses (.text symbol)
  absent {symbol : Text} : bars.comes symbol → refuses (.absent (.text symbol))
  leaf {name : Rule} : name.isLeaf → bars.leaf name → refuses (.rule name)
  rule {name : Rule} : name.isLeaf = false → (flow.rules name).mode = none →
    refuses (flow.rules name).body → refuses (.rule name)
  sequenceFails {first second : Expression Rule} :
    refuses first → refuses (.sequence first second)
  sequenceBreaks {first second : Expression Rule} :
    skips first → refuses second → refuses (.sequence first second)
  sequence {first second : Expression Rule} :
    skips first → skips second → skips (.sequence first second)
  choice {first second : Expression Rule} : skips first → skips (.choice first second)
  choiceElse {first second : Expression Rule} :
    refuses first → skips second → skips (.choice first second)
  choiceFails {first second : Expression Rule} :
    refuses first → refuses second → refuses (.choice first second)
  optional {body : Expression Rule} : skips body → skips (.optional body)
  optionalSkips {body : Expression Rule} : refuses body → skips (.optional body)
  manyEnds {body : Expression Rule} : refuses body → skips (.many body)

section

variable {bars : Bars} {refuses skips : Expression Rule → Prop}

/-- The fate of an expression is what the laws say. -/
def Fate.Holds (refuses skips : Expression Rule → Prop) (expression : Expression Rule) :
    Fate → Prop
  | .refuses => refuses expression
  | .skips => skips expression
  | .unknown => True

variable (laws : bars.Govern refuses skips)

include laws

theorem fateWith_holds {ofRule : Rule → Fate}
    (rules : ∀ name, (ofRule name).Holds refuses skips (.rule name))
    (expression : Expression Rule) :
    (expression.fateWith bars ofRule).Holds refuses skips expression := by
  induction expression with
  | empty => exact laws.empty
  | text symbol =>
      unfold Expression.fateWith
      split
      · next barred => exact laws.text barred
      · trivial
  | rule name => exact rules name
  | sequence first second left right =>
      unfold Expression.fateWith
      cases fate : first.fateWith bars ofRule with
      | refuses =>
          rw [fate] at left
          exact laws.sequenceFails left
      | skips =>
          rw [fate] at left
          cases other : second.fateWith bars ofRule with
          | refuses =>
              rw [other] at right
              exact laws.sequenceBreaks left right
          | skips =>
              rw [other] at right
              exact laws.sequence left right
          | unknown => trivial
      | unknown => trivial
  | choice first second left right =>
      unfold Expression.fateWith
      cases fate : first.fateWith bars ofRule with
      | refuses =>
          rw [fate] at left
          cases other : second.fateWith bars ofRule with
          | refuses =>
              rw [other] at right
              exact laws.choiceFails left right
          | skips =>
              rw [other] at right
              exact laws.choiceElse left right
          | unknown => trivial
      | skips =>
          rw [fate] at left
          exact laws.choice left
      | unknown => trivial
  | optional body ih =>
      unfold Expression.fateWith
      cases fate : body.fateWith bars ofRule with
      | refuses =>
          rw [fate] at ih
          exact laws.optionalSkips ih
      | skips =>
          rw [fate] at ih
          exact laws.optional ih
      | unknown => trivial
  | many body ih =>
      unfold Expression.fateWith
      cases fate : body.fateWith bars ofRule with
      | refuses =>
          rw [fate] at ih
          exact laws.manyEnds ih
      | skips | unknown => trivial
  | absent body =>
      cases body with
      | text symbol =>
          unfold Expression.fateWith
          split
          · next comes => exact laws.absent comes
          · trivial
      | _ => trivial
  | oneOf | endOfInput | manyMore => trivial

theorem ruleFate_holds (depth : Nat) (name : Rule) :
    (Rule.fate bars depth name).Holds refuses skips (.rule name) := by
  induction depth generalizing name with
  | zero => trivial
  | succ depth ih =>
      unfold Rule.fate
      split
      · next leaf =>
          split
          · next barred => exact laws.leaf leaf barred
          · trivial
      · next inner =>
          split
          · next spaced =>
              have body := fateWith_holds laws ih (flow.rules name).body
              split
              · next fate =>
                  rw [fate] at body
                  exact laws.rule (Bool.eq_false_iff.mpr inner)
                    (Option.isNone_iff_eq_none.mp spaced) body
              · trivial
              · trivial
          · trivial

theorem fate_holds (expression : Expression Rule) :
    (expression.fate bars).Holds refuses skips expression :=
  fateWith_holds laws (ruleFate_holds laws fateDepth) expression

theorem refuses_of_fate {expression : Expression Rule} (fate : expression.fate bars = .refuses) :
    refuses expression := by
  have holds := fate_holds laws expression
  rwa [fate] at holds

theorem skips_of_fate {expression : Expression Rule} (fate : expression.fate bars = .skips) :
    skips expression := by
  have holds := fate_holds laws expression
  rwa [fate] at holds

end

/-- The bars are right about a row of words. -/
structure Bars.Hold (bars : Bars) (words : List Text) : Prop where
  text : ∀ symbol, bars.text symbol → words.head? ≠ some symbol
  leaf : ∀ name : Rule, name.isLeaf → bars.leaf name →
    ∀ word ∈ words.head?, name.reading word = none
  comes : ∀ symbol, bars.comes symbol → ∃ word more, words = word :: more ∧ symbol <+: word

theorem Bars.Hold.laws {bars : Bars} {words : List Text} (holds : bars.Hold words) :
    bars.Govern (fun expression => Derives expression words none)
      (fun expression => Derives expression words (some ([], words))) where
  empty := .empty
  text barred := .textFails (holds.text _ barred)
  absent comes := by
    obtain ⟨word, more, rfl, starts⟩ := holds.comes _ comes
    exact .absentFails starts
  leaf leaf barred := .leafFails leaf (holds.leaf _ leaf barred)
  rule inner _ body := .ruleFails inner body
  sequenceFails := .sequenceFails
  sequenceBreaks := .sequenceBreaks
  sequence := .sequence
  choice := .choice
  choiceElse := .choiceElse
  choiceFails := .choiceElse
  optional := .optional
  optionalSkips := .optionalSkips
  manyEnds := .manyEnds

/-- The bars are right about a text. -/
structure Bars.Guard (bars : Bars) (rest : Text) : Prop where
  token : AtToken rest
  text : ∀ symbol, bars.text symbol → ¬symbol <+: rest
  leaf : ∀ name : Rule, name.isLeaf → bars.leaf name → Misses (.rule name) rest
  comes : ∀ symbol, bars.comes symbol → symbol <+: rest

/-- Where trivia may stand around it, the expression matches without consuming anything. -/
def Passes (expression : Expression Rule) (text : Text) : Prop :=
  ∀ before, flow.Yields expression .spaced (.after before text) (some (.empty (.after before text)))

/-- No trivia comes before a token. -/
theorem AtToken.gap {rest : Text} (token : AtToken rest) (before : Text) :
    flow.Yields (flow.gap .spaced) .sealed (.after before rest)
      (some (.empty (.after before rest))) := by
  have reads := (Skipped.nil token).reads before
  rw [List.append_nil] at reads
  exact reads

theorem Bars.Guard.laws {bars : Bars} {rest : Text} (guards : bars.Guard rest) :
    bars.Govern (Misses · rest) (Passes · rest) where
  empty _ := .empty
  text barred _ := .textFails (Cursor.take?_eq_none (guards.text _ barred))
  absent comes before := by
    obtain ⟨tail, same⟩ := guards.comes _ comes
    rw [← same]
    exact .absentFails (.text (Cursor.take?_after before _ tail))
  leaf leaf barred := guards.leaf _ leaf barred
  rule _ spaced body before := by
    refine .ruleFails ?_
    rw [spaced]
    exact body before
  sequenceFails left before := .sequenceFails (left before)
  sequenceBreaks left right before :=
    .sequenceBreaks (left before) (guards.token.gap before) (right before)
  sequence left right before := .sequence (left before) (guards.token.gap before) (right before)
  choice left before := .choice (left before)
  choiceElse left right before := .choiceElse (left before) (right before)
  choiceFails left right before := .choiceElse (left before) (right before)
  optional body before := .optional (body before)
  optionalSkips body before := .optionalSkips (body before)
  manyEnds body before := .manyEnds (body before)

end FlowScript.Grammar
