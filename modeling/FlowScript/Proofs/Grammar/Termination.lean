import FlowScript.Grammar.Flow
import FlowScript.Proofs.Grammar.Matching

/-!
# Matching ends

The matcher calls itself in two ways: further on in the text, or at the same place
with an expression that is less high. Heights are numbers below a bound, so fuel in
proportion to the length of the text is enough.
-/

set_option autoImplicit false

namespace FlowScript.Grammar

/-! ## Heights of expressions -/

/-- What is known about the rules of a grammar: which of them may match nothing, and
how high they and the trivia are. -/
structure Heights (ρ : Type) where
  mayBeEmpty : ρ → Bool
  rule : ρ → Nat
  trivia : Nat
  bound : Nat

/-- The height of what may stand between two parts. -/
def Heights.gap {ρ : Type} (heights : Heights ρ) (mode : Mode) : Nat :=
  if mode = .spaced then heights.trivia else 0

namespace Expression

variable {ρ : Type}

def mayBeEmpty (heights : Heights ρ) : Expression ρ → Bool
  | empty | endOfInput | optional _ | many _ | manyMore _ | absent _ => true
  | text chars => chars.isEmpty
  | oneOf _ => false
  | rule name => heights.mayBeEmpty name
  | sequence first second => first.mayBeEmpty heights && second.mayBeEmpty heights
  | choice first second => first.mayBeEmpty heights || second.mayBeEmpty heights

/-- How many calls at one place of the text matching may need. -/
def height (heights : Heights ρ) (mode : Mode) : Expression ρ → Nat
  | empty | text _ | oneOf _ | endOfInput => 0
  | rule name => heights.rule name
  | sequence first second =>
      max (first.height heights mode)
        (if first.mayBeEmpty heights then max (heights.gap mode) (second.height heights mode)
          else 0) + 1
  | choice first second => max (first.height heights mode) (second.height heights mode) + 1
  | optional body | many body | absent body => body.height heights mode + 1
  | manyMore body => max (heights.gap mode) (body.height heights mode) + 1

/-- Whether all parts are below the bound and nothing empty is repeated. -/
def fits (heights : Heights ρ) (mode : Mode) : Expression ρ → Bool
  | empty => heights.bound ≠ 0
  | text _ => heights.bound ≠ 0
  | oneOf _ => heights.bound ≠ 0
  | endOfInput => heights.bound ≠ 0
  | rule name => heights.rule name < heights.bound
  | sequence first second => first.fits heights mode && second.fits heights mode &&
      (sequence first second).height heights mode < heights.bound
  | choice first second => first.fits heights mode && second.fits heights mode &&
      (choice first second).height heights mode < heights.bound
  | optional body => body.fits heights mode && (optional body).height heights mode < heights.bound
  | many body => body.fits heights mode && (manyMore body).height heights mode < heights.bound &&
      !body.mayBeEmpty heights
  | manyMore body => body.fits heights mode && (manyMore body).height heights mode < heights.bound &&
      !body.mayBeEmpty heights
  | absent body => body.fits heights mode && (absent body).height heights mode < heights.bound

theorem height_lt {heights : Heights ρ} {mode : Mode} {expression : Expression ρ}
    (fits : expression.fits heights mode) : expression.height heights mode < heights.bound := by
  cases expression <;> simp only [Expression.fits, Bool.and_eq_true, decide_eq_true_eq] at fits
  case many body =>
    have higher := fits.1.2
    simp only [height] at higher ⊢
    omega
  all_goals first
    | exact fits
    | exact fits.2
    | exact fits.1.2
    | exact Nat.pos_of_ne_zero fits

end Expression

variable {ρ : Type}

/-- The heights suit the grammar. -/
structure Heights.Suits (heights : Heights ρ) (grammar : Grammar ρ) : Prop where
  mayBeEmpty : ∀ name, (grammar.rules name).body.mayBeEmpty heights →
    heights.mayBeEmpty name
  lower : ∀ name mode, (grammar.rules name).body.height heights
    ((grammar.rules name).mode.getD mode) < heights.rule name
  fits : ∀ name mode, (grammar.rules name).body.fits heights
    ((grammar.rules name).mode.getD mode)
  trivia : grammar.trivia.height heights .sealed ≤ heights.trivia
  triviaFits : grammar.trivia.fits heights .sealed
  triviaBelow : heights.trivia < heights.bound

theorem Heights.Suits.gap_lt {heights : Heights ρ} {grammar : Grammar ρ}
    (suits : heights.Suits grammar) (mode : Mode) : heights.gap mode < heights.bound := by
  unfold Heights.gap
  have below := suits.triviaBelow
  split <;> omega

/-! ## Matches consume text -/

theorem Cursor.length_takeOne? {cursor next : Cursor} {accepts : Char → Bool}
    (taken : cursor.takeOne? accepts = some next) :
    next.rest.length < cursor.rest.length := by
  unfold Cursor.takeOne? at taken
  split at taken
  · cases taken
  · next char rest equation =>
      split at taken
      · cases taken
        rw [equation]
        exact Nat.lt_succ_self _
      · cases taken

theorem Cursor.length_take? {chars : List Char} {cursor next : Cursor}
    (taken : cursor.take? chars = some next) :
    next.rest.length + chars.length = cursor.rest.length := by
  induction chars generalizing cursor with
  | nil =>
      cases taken
      rfl
  | cons char chars ih =>
      obtain ⟨middle, first, rest⟩ := Option.bind_eq_some_iff.mp taken
      have shorter := ih rest
      unfold Cursor.takeOne? at first
      split at first
      · cases first
      · next head tail equation =>
          split at first
          · cases first
            rw [equation, List.length_cons, List.length_cons, ← shorter]
            omega
          · cases first

/-- No match goes backwards, and one that may not be empty goes forwards. -/
theorem Yields.consumes {grammar : Grammar ρ} {heights : Heights ρ}
    (suits : heights.Suits grammar) {expression : Expression ρ} {mode : Mode} {cursor : Cursor}
    {found : Match ρ} (yields : grammar.Yields expression mode cursor (some found)) :
    found.cursor.rest.length ≤ cursor.rest.length ∧
      (expression.mayBeEmpty heights = false →
        found.cursor.rest.length < cursor.rest.length) := by
  generalize same : some found = result at yields
  induction yields generalizing found with
  | textFails | oneOfFails | endOfInputFails | ruleFails | sequenceFails | sequenceBreaks
    | absentFails => cases same
  | empty | endOfInput | optionalSkips | manyEnds | manyMoreEnds | absent =>
      cases same
      exact ⟨Nat.le_refl _, fun impossible => by cases impossible⟩
  | @text chars mode cursor next taken =>
      cases same
      have shorter := Cursor.length_take? taken
      dsimp only [Match.chars]
      refine ⟨by omega, fun nonempty => ?_⟩
      cases chars with
      | nil => cases nonempty
      | cons char chars =>
          rw [List.length_cons] at shorter
          omega
  | oneOf taken =>
      cases same
      have shorter := Cursor.length_takeOne? taken
      exact ⟨Nat.le_of_lt shorter, fun _ => shorter⟩
  | @rule name mode cursor body _ ih =>
      cases same
      obtain ⟨le, lt⟩ := ih rfl
      refine ⟨le, fun nonempty => lt ?_⟩
      cases empty : (grammar.rules name).body.mayBeEmpty heights with
      | false => rfl
      | true => exact absurd (suits.mayBeEmpty name empty) (ne_true_of_eq_false nonempty)
  | sequence _ _ _ first between second =>
      cases same
      obtain ⟨firstLe, firstLt⟩ := first rfl
      obtain ⟨gapLe, -⟩ := between rfl
      obtain ⟨secondLe, secondLt⟩ := second rfl
      dsimp only [Match.append]
      refine ⟨by omega, fun nonempty => ?_⟩
      rcases Bool.and_eq_false_iff.mp nonempty with left | right
      · have := firstLt left
        omega
      · have := secondLt right
        omega
  | choice _ ih =>
      obtain ⟨le, lt⟩ := ih same
      exact ⟨le, fun nonempty => lt (Bool.or_eq_false_iff.mp nonempty).1⟩
  | choiceElse _ _ _ ih =>
      obtain ⟨le, lt⟩ := ih same
      exact ⟨le, fun nonempty => lt (Bool.or_eq_false_iff.mp nonempty).2⟩
  | optional _ ih =>
      obtain ⟨le, -⟩ := ih same
      exact ⟨le, fun impossible => by cases impossible⟩
  | many _ _ first rest =>
      cases same
      exact ⟨Nat.le_trans (rest rfl).1 (first rfl).1, fun impossible => by cases impossible⟩
  | manyMore _ _ _ between first rest =>
      cases same
      exact ⟨Nat.le_trans (rest rfl).1 (Nat.le_trans (first rfl).1 (between rfl).1),
        fun impossible => by cases impossible⟩

/-! ## Fuel suffices -/

/-- Fuel for a call: so much for each character that is left, and the height. -/
def Heights.fuel (heights : Heights ρ) (cursor : Cursor) (height : Nat) : Nat :=
  heights.bound * cursor.rest.length + height

theorem Heights.fuel_lt_of_height {heights : Heights ρ} {cursor next : Cursor}
    {height lower : Nat} (le : next.rest.length ≤ cursor.rest.length) (lt : lower < height) :
    heights.fuel next lower < heights.fuel cursor height := by
  have mul := Nat.mul_le_mul_left heights.bound le
  unfold Heights.fuel
  omega

theorem Heights.fuel_lt_of_rest {heights : Heights ρ} {cursor next : Cursor}
    {height other : Nat} (lt : next.rest.length < cursor.rest.length)
    (below : other < heights.bound) : heights.fuel next other < heights.fuel cursor height := by
  have mul := Nat.mul_le_mul_left heights.bound (Nat.succ_le_of_lt lt)
  rw [Nat.mul_succ] at mul
  unfold Heights.fuel
  omega

section

variable {grammar : Grammar ρ} {heights : Heights ρ} {fuel : Nat}
  (suits : heights.Suits grammar) (patient : grammar.Patient)
  (ends : ∀ expression mode cursor furthest, expression.fits heights mode →
    heights.fuel cursor (expression.height heights mode) < fuel →
    grammar.run fuel expression mode cursor furthest ≠ .exhausted)

include suits patient

theorem run_consumes {expression : Expression ρ} {mode : Mode} {cursor next : Cursor}
    {furthest reached : Nat} {nodes : List (Node ρ)}
    (ran : grammar.run fuel expression mode cursor furthest = .matched nodes next reached) :
    next.rest.length ≤ cursor.rest.length ∧
      (expression.mayBeEmpty heights = false → next.rest.length < cursor.rest.length) := by
  have shows := run_shows patient fuel expression mode cursor furthest
  rw [ran] at shows
  obtain ⟨tokens, yields⟩ := shows
  exact yields.consumes suits

theorem runGap_consumes {mode : Mode} {cursor next : Cursor} {furthest reached : Nat}
    {nodes : List (Node ρ)}
    (ran : grammar.runGap fuel mode cursor furthest = .matched nodes next reached) :
    next.rest.length ≤ cursor.rest.length := by
  unfold runGap at ran
  split at ran
  · exact (run_consumes suits patient ran).1
  · cases ran
    exact Nat.le_refl _

omit patient in
include ends in
theorem runGap_ends (mode : Mode) {cursor : Cursor} (furthest : Nat)
    (enough : heights.fuel cursor (heights.gap mode) < fuel) :
    grammar.runGap fuel mode cursor furthest ≠ .exhausted := by
  unfold runGap
  split
  · next spaced =>
      refine ends _ _ _ _ suits.triviaFits (Nat.lt_of_le_of_lt ?_ enough)
      rw [Heights.gap, if_pos spaced]
      exact Nat.add_le_add_left suits.trivia _
  · nofun

include ends

theorem sequence_ends {first second : Expression ρ} {mode : Mode} {cursor : Cursor}
    {furthest : Nat} (fits : (Expression.sequence first second).fits heights mode)
    (enough : heights.fuel cursor ((Expression.sequence first second).height heights mode) < fuel + 1) :
    grammar.run (fuel + 1) (.sequence first second) mode cursor furthest ≠ .exhausted := by
  simp only [Expression.fits, Bool.and_eq_true, decide_eq_true_eq] at fits
  obtain ⟨⟨firstFits, secondFits⟩, -⟩ := fits
  -- What comes behind the first part is called further on, or with less height.
  have later : ∀ {next : Cursor} {other : Nat}, next.rest.length ≤ cursor.rest.length →
      (first.mayBeEmpty heights = false → next.rest.length < cursor.rest.length) →
      other < heights.bound → other ≤ max (heights.gap mode) (second.height heights mode) →
      heights.fuel next other < fuel := by
    intro next other le lt below lower
    refine Nat.lt_of_lt_of_le ?_ (Nat.le_of_lt_succ enough)
    cases empty : first.mayBeEmpty heights with
    | false => exact Heights.fuel_lt_of_rest (lt empty) below
    | true =>
        refine Heights.fuel_lt_of_height le ?_
        simp only [Expression.height, empty, if_true]
        omega
  rw [run_sequence]
  have left := ends first mode cursor furthest firstFits
    (Nat.lt_of_lt_of_le (Heights.fuel_lt_of_height (Nat.le_refl _) (by
      simp only [Expression.height]
      omega)) (Nat.le_of_lt_succ enough))
  cases ran : grammar.run fuel first mode cursor furthest with
  | exhausted => exact absurd ran left
  | failed => rintro ⟨⟩
  | matched nodes next reached =>
      obtain ⟨le, lt⟩ := run_consumes suits patient ran
      have between := runGap_ends suits ends mode reached
        (later le lt (suits.gap_lt mode) (Nat.le_max_left _ _))
      simp only [Outcome.bind]
      cases skips : grammar.runGap fuel mode next reached with
      | exhausted => exact absurd skips between
      | failed => rintro ⟨⟩
      | matched none skipped further =>
          have gapLe := runGap_consumes suits patient skips
          have right := ends second mode skipped further secondFits
            (later (Nat.le_trans gapLe le) (fun empty => Nat.lt_of_le_of_lt gapLe (lt empty))
              (Expression.height_lt secondFits) (Nat.le_max_right _ _))
          dsimp only
          cases ranSecond : grammar.run fuel second mode skipped further with
          | exhausted => exact absurd ranSecond right
          | failed | matched => rintro ⟨⟩

omit suits patient in
/-- A repetition goes on behind a round, which has consumed something. -/
theorem rounds_end {body : Expression ρ} (mode : Mode) {cursor next : Cursor} (furthest : Nat)
    {height : Nat} (fits : (Expression.manyMore body).fits heights mode)
    (lt : next.rest.length < cursor.rest.length)
    (enough : heights.fuel cursor height < fuel + 1) :
    grammar.run fuel (.manyMore body) mode next furthest ≠ .exhausted :=
  ends _ _ _ _ fits (Nat.lt_of_lt_of_le
    (Heights.fuel_lt_of_rest lt (Expression.height_lt fits)) (Nat.le_of_lt_succ enough))

theorem many_ends {body : Expression ρ} {mode : Mode} {cursor : Cursor} {furthest : Nat}
    (fits : (Expression.many body).fits heights mode)
    (enough : heights.fuel cursor ((Expression.many body).height heights mode) < fuel + 1) :
    grammar.run (fuel + 1) (.many body) mode cursor furthest ≠ .exhausted := by
  have repeats : (Expression.manyMore body).fits heights mode := fits
  simp only [Expression.fits, Bool.and_eq_true, Bool.not_eq_true'] at fits
  have round := ends body mode cursor furthest fits.1.1
    (Nat.lt_of_lt_of_le (Heights.fuel_lt_of_height (Nat.le_refl _) (Nat.lt_succ_self _))
      (Nat.le_of_lt_succ enough))
  rw [run_many]
  cases ran : grammar.run fuel body mode cursor furthest with
  | exhausted => exact absurd ran round
  | failed => nofun
  | matched nodes next reached =>
      have rest := rounds_end ends mode reached repeats
        ((run_consumes suits patient ran).2 fits.2) enough
      dsimp only
      cases more : grammar.run fuel (.manyMore body) mode next reached with
      | exhausted => exact absurd more rest
      | failed | matched => nofun

theorem manyMore_ends {body : Expression ρ} {mode : Mode} {cursor : Cursor} {furthest : Nat}
    (fits : (Expression.manyMore body).fits heights mode)
    (enough : heights.fuel cursor ((Expression.manyMore body).height heights mode) < fuel + 1) :
    grammar.run (fuel + 1) (.manyMore body) mode cursor furthest ≠ .exhausted := by
  have repeats := fits
  simp only [Expression.fits, Bool.and_eq_true, Bool.not_eq_true'] at fits
  have lower : ∀ {next : Cursor} {other : Nat}, next.rest.length ≤ cursor.rest.length →
      other ≤ max (heights.gap mode) (body.height heights mode) → heights.fuel next other < fuel :=
    fun le lower => Nat.lt_of_lt_of_le
      (Heights.fuel_lt_of_height le (Nat.lt_succ_of_le lower)) (Nat.le_of_lt_succ enough)
  have between := runGap_ends suits ends mode furthest
    (lower (Nat.le_refl _) (Nat.le_max_left _ _))
  rw [run_manyMore]
  cases skips : grammar.runGap fuel mode cursor furthest with
  | exhausted => exact absurd skips between
  | failed => rintro ⟨⟩
  | matched none skipped further =>
      have gapLe := runGap_consumes suits patient skips
      have round := ends body mode skipped further fits.1.1 (lower gapLe (Nat.le_max_right _ _))
      simp only [Outcome.bind]
      cases ran : grammar.run fuel body mode skipped further with
      | exhausted => exact absurd ran round
      | failed => rintro ⟨⟩
      | matched nodes next reached =>
          have lt := (run_consumes suits patient ran).2 fits.2
          have rest := rounds_end ends mode reached repeats
            (Nat.lt_of_lt_of_le lt gapLe) enough
          dsimp only
          cases more : grammar.run fuel (.manyMore body) mode next reached with
          | exhausted => exact absurd more rest
          | failed | matched => rintro ⟨⟩

end

/-- With enough fuel the matcher always knows the answer. -/
theorem run_ends {grammar : Grammar ρ} {heights : Heights ρ} (suits : heights.Suits grammar)
    (patient : grammar.Patient) {fuel : Nat} {expression : Expression ρ} {mode : Mode}
    {cursor : Cursor} {furthest : Nat} (fits : expression.fits heights mode)
    (enough : heights.fuel cursor (expression.height heights mode) < fuel) :
    grammar.run fuel expression mode cursor furthest ≠ .exhausted := by
  induction fuel generalizing expression mode cursor furthest with
  | zero => exact absurd enough (Nat.not_lt_zero _)
  | succ fuel ih =>
      have ends : ∀ expression mode cursor furthest, expression.fits heights mode →
          heights.fuel cursor (expression.height heights mode) < fuel →
          grammar.run fuel expression mode cursor furthest ≠ .exhausted :=
        fun _ _ _ _ fits enough => ih fits enough
      have lower : ∀ {part : Expression ρ} {inner : Mode} (furthest : Nat),
          part.fits heights inner →
          part.height heights inner < expression.height heights mode →
          grammar.run fuel part inner cursor furthest ≠ .exhausted :=
        fun _ fits lt => ih fits (Nat.lt_of_lt_of_le
          (Heights.fuel_lt_of_height (Nat.le_refl _) lt) (Nat.le_of_lt_succ enough))
      cases expression with
      | empty => rintro ⟨⟩
      | text chars =>
          unfold run
          dsimp only
          split <;> rintro ⟨⟩
      | oneOf accepts =>
          unfold run
          dsimp only
          split <;> rintro ⟨⟩
      | endOfInput =>
          unfold run
          dsimp only
          split <;> rintro ⟨⟩
      | rule name =>
          have inside := lower furthest (suits.fits name mode) (suits.lower name mode)
          rw [run_rule]
          split
          · split <;> rintro ⟨⟩
          · split <;> rintro ⟨⟩
          · next ran => exact absurd ran inside
      | sequence first second => exact sequence_ends suits patient ends fits enough
      | choice first second =>
          simp only [Expression.fits, Bool.and_eq_true] at fits
          have left := lower furthest fits.1.1
            (Nat.lt_succ_of_le (Nat.le_max_left _ _))
          change Outcome.orElse _ _ ≠ _
          cases ran : grammar.run fuel first mode cursor furthest with
          | exhausted => exact absurd ran left
          | matched => rintro ⟨⟩
          | failed reached => exact lower reached fits.1.2 (Nat.lt_succ_of_le (Nat.le_max_right _ _))
      | optional body =>
          simp only [Expression.fits, Bool.and_eq_true] at fits
          have inside := lower furthest fits.1 (Nat.lt_succ_self _)
          change Outcome.orElse _ _ ≠ _
          cases ran : grammar.run fuel body mode cursor furthest with
          | exhausted => exact absurd ran inside
          | matched | failed => rintro ⟨⟩
      | many body => exact many_ends suits patient ends fits enough
      | manyMore body => exact manyMore_ends suits patient ends fits enough
      | absent body =>
          simp only [Expression.fits, Bool.and_eq_true] at fits
          have inside := lower furthest fits.1 (Nat.lt_succ_self _)
          unfold run
          dsimp only
          cases ran : grammar.run fuel body mode cursor furthest with
          | exhausted => exact absurd ran inside
          | matched | failed => rintro ⟨⟩

/-- Every expression does one thing or the other. -/
theorem Heights.Suits.yields {grammar : Grammar ρ} {heights : Heights ρ}
    (suits : heights.Suits grammar) (patient : grammar.Patient) {expression : Expression ρ}
    {mode : Mode} (fits : expression.fits heights mode) (cursor : Cursor) :
    ∃ result, grammar.Yields expression mode cursor result := by
  let fuel := heights.fuel cursor (expression.height heights mode) + 1
  have ends : grammar.run fuel expression mode cursor 0 ≠ .exhausted :=
    run_ends suits patient fits (Nat.lt_succ_self _)
  have shows := run_shows patient fuel expression mode cursor 0
  cases ran : grammar.run fuel expression mode cursor 0 with
  | exhausted => exact absurd ran ends
  | failed =>
      rw [ran] at shows
      exact ⟨none, shows⟩
  | matched nodes next reached =>
      rw [ran] at shows
      obtain ⟨tokens, yields⟩ := shows
      exact ⟨_, yields⟩

/-! ## The grammar of Flow -/

theorem flow_patient : flow.Patient := by
  intro cursor fails
  cases fails with
  | sequenceFails first => cases first
  | sequenceBreaks _ _ second => cases second

/-- The heights of the rules, by the order in which they lead to each other at one
place of the text. -/
def flowHeights : Heights Rule where
  mayBeEmpty
    | .stringTripleContent | .endOfInput | .program => true
    | _ => false
  rule
    | .keyword _ | .unaryOperator _ | .binaryOperator _ => 10
    | .blockComment => 10
    | .stringTripleContent | .stringSingleContent => 20
    | .stringTriple | .stringSingle | .durationCount | .durationUnit => 30
    | .boolean | .duration | .real | .integer => 40
    | .literal | .identifier => 50
    | .identifierPath | .parameter | .returnType => 60
    | .functionCall | .arguments | .array | .dictionary | .signature | .dictionaryEntry => 70
    | .awaitExpression | .tryExpression => 70
    | .primary => 90
    | .unary => 100
    | .multiplicative => 110
    | .additive => 120
    | .relational => 130
    | .equality => 140
    | .logical => 150
    | .expression => 160
    | .argument | .conditional | .block | .expressionOnly => 170
    | .importStatement | .delayStatement | .returnStatement | .raiseStatement
    | .breakStatement | .variableDeclaration | .assignment | .expressionStatement
    | .ifStatement | .repeatStatement | .workflowDefinition => 180
    | .statement => 200
    | .endOfInput => 10
    | .program => 210
  trivia := 20
  bound := stepsPerChar

def Keyword.all : List Keyword :=
  [.importWord, .delayWord, .returnWord, .raiseWord, .breakWord, .tryWord, .repeatWord, .ifWord,
    .elifWord, .elseWord, .awaitWord, .forWord, .workflowWord]

def Rule.all : List Rule :=
  Keyword.all.map .keyword ++ UnaryOperator.all.map .unaryOperator ++
    BinaryOperator.all.map .binaryOperator ++
    ([.blockComment, .identifier, .identifierPath, .stringTriple, .stringTripleContent,
      .stringSingle, .stringSingleContent, .boolean, .duration, .durationCount, .durationUnit,
      .real, .integer, .literal, .expression, .logical, .equality, .relational, .additive,
      .multiplicative, .unary, .primary, .awaitExpression, .tryExpression, .functionCall,
      .arguments, .argument, .array, .dictionary, .dictionaryEntry, .block, .statement,
      .importStatement, .delayStatement, .returnStatement, .raiseStatement, .breakStatement,
      .variableDeclaration, .assignment, .expressionStatement, .ifStatement, .conditional,
      .repeatStatement, .workflowDefinition, .signature, .parameter, .returnType, .endOfInput,
      .program, .expressionOnly] : List Rule)

theorem Rule.mem_all (name : Rule) : name ∈ Rule.all := by
  cases name with
  | keyword word => cases word <;> decide
  | unaryOperator op => cases op <;> decide
  | binaryOperator op => cases op <;> decide
  | _ => decide

/-- What can be checked rule by rule. -/
theorem Rule.forall_of_all {check : Rule → Bool} (checked : Rule.all.all check) (name : Rule) :
    check name :=
  List.all_eq_true.mp checked name name.mem_all

def Heights.suitsRule (heights : Heights Rule) (name : Rule) : Bool :=
  let body := (flow.rules name).body
  heights.rule name < heights.bound && (!body.mayBeEmpty heights || heights.mayBeEmpty name) &&
    [Mode.spaced, .joined, .sealed].all fun mode =>
      let inner := (flow.rules name).mode.getD mode
      body.height heights inner < heights.rule name && body.fits heights inner

theorem flowHeights_suits (name : Rule) : flowHeights.suitsRule name :=
  Rule.forall_of_all (by decide) name

theorem flowHeights_suit : flowHeights.Suits flow := by
  have modes : ∀ name mode,
      (flow.rules name).body.height flowHeights ((flow.rules name).mode.getD mode) <
          flowHeights.rule name ∧
        (flow.rules name).body.fits flowHeights ((flow.rules name).mode.getD mode) := by
    intro name mode
    have suits := flowHeights_suits name
    simp only [Heights.suitsRule, Bool.and_eq_true, List.all_eq_true, decide_eq_true_eq] at suits
    exact suits.2 mode (by cases mode <;> decide)
  refine ⟨fun name empty => ?_, fun name mode => (modes name mode).1,
    fun name mode => (modes name mode).2, by decide, by decide, by decide⟩
  have suits := flowHeights_suits name
  simp only [Heights.suitsRule, Bool.and_eq_true, empty, Bool.not_true, Bool.false_or] at suits
  exact suits.1.2

theorem flow_rule_fits (name : Rule) (mode : Mode) :
    (Expression.rule name).fits flowHeights mode := by
  have suits := flowHeights_suits name
  simp only [Heights.suitsRule, Bool.and_eq_true] at suits
  exact suits.1.1

/-- Parsing finds out what the start rule does at the beginning of the text. -/
theorem flow_parse_shows (start : Rule) (text : Text) :
    flow.parse start text ≠ .exhausted ∧
      (flow.parse start text).Shows flow (.rule start) .spaced ⟨text, 0⟩ := by
  refine ⟨run_ends flowHeights_suit flow_patient (flow_rule_fits start .spaced) ?_,
    run_shows flow_patient _ _ _ _ _⟩
  have below := Expression.height_lt (flow_rule_fits start .spaced)
  change flowHeights.bound * text.length + _ < flowHeights.bound * (text.length + 1)
  rw [Nat.mul_succ]
  omega

end FlowScript.Grammar
