import FlowScript.Proofs.Grammar.Lexeme

/-!
# Words and literals

How words, numbers and strings are read, each up to its own end. What a token is read
as depends on the token alone.
-/

set_option autoImplicit false

namespace FlowScript.Grammar

open Expression hiding rule

/-- Where trivia may stand around it, the expression reads the token. -/
def Takes (expression : Expression Rule) (token rest : Text) (sketches : List Sketch) : Prop :=
  ∀ before, ∃ nodes,
    flow.Yields expression .spaced (.after before (token ++ rest))
      (some ⟨nodes, .after (before ++ token) rest,
        [⟨before.byteSize, (before ++ token).byteSize⟩]⟩) ∧
    sketchAll (before ++ (token ++ rest)) nodes = sketches

/-- Where trivia may stand around it, the expression does not match. -/
def Misses (expression : Expression Rule) (text : Text) : Prop :=
  ∀ before, flow.Yields expression .spaced (.after before text) none

section

variable {name : Rule} {first second : Expression Rule} {token rest text : Text}
  {sketches : List Sketch}

theorem Takes.choice (takes : Takes first token rest sketches) :
    Takes (.choice first second) token rest sketches := by
  intro before
  obtain ⟨nodes, yields, same⟩ := takes before
  exact ⟨nodes, .choice yields, same⟩

theorem Takes.choiceElse (misses : Misses first (token ++ rest))
    (takes : Takes second token rest sketches) :
    Takes (.choice first second) token rest sketches := by
  intro before
  obtain ⟨nodes, yields, same⟩ := takes before
  exact ⟨nodes, .choiceElse (misses before) yields, same⟩

theorem Misses.choice (left : Misses first text) (right : Misses second text) :
    Misses (.choice first second) text :=
  fun before => .choiceElse (left before) (right before)

/-- What a rule for a single token leaves of it. -/
def ownSketch (name : Rule) (token : Text) : List Sketch :=
  if (flow.rules name).captured then
    [.node name (if name.isContent then token else []) []]
  else []

theorem Reads.takes (inside : (flow.rules name).mode = some .sealed)
    (reads : Reads (flow.rules name).body token rest) :
    Takes (.rule name) token rest (ownSketch name token) := by
  intro before
  have body : flow.Yields (flow.rules name).body ((flow.rules name).mode.getD .spaced)
      (.after before (token ++ rest)) (some (.empty (.after (before ++ token) rest))) := by
    rw [inside]
    exact reads before
  have closed := Yields.rule body
  refine ⟨_, by simpa [Match.close, Match.empty, inside] using closed, ?_⟩
  unfold ownSketch
  split
  · simp only [sketchAll, Node.sketch]
    split
    · next content => rw [← Text.byteSize_append, contentOf_append content]
    · next other => rw [contentOf, if_neg other]
  · rfl

theorem Refuses.misses (inside : (flow.rules name).mode = some .sealed)
    (refuses : Refuses (flow.rules name).body text) : Misses (.rule name) text := by
  intro before
  refine .ruleFails ?_
  rw [inside]
  exact refuses before

end

/-! ## Parts of a token -/

section

variable {name : Rule} {chars rest text : Text}

theorem Reads.part (sealed : (flow.rules name).mode = some .sealed)
    (captured : (flow.rules name).captured) (reads : Reads (flow.rules name).body chars rest)
    (before : Text) :
    flow.Yields (.rule name) .joined (.after before (chars ++ rest))
      (some ⟨[.node name before.byteSize (before ++ chars).byteSize []],
        .after (before ++ chars) rest, []⟩) := by
  have body : flow.Yields (flow.rules name).body ((flow.rules name).mode.getD .joined)
      (.after before (chars ++ rest)) (some (.empty (.after (before ++ chars) rest))) := by
    rw [sealed]
    exact reads before
  have closed := Yields.rule body
  simpa [Match.close, Match.empty, sealed, captured] using closed

theorem Refuses.part (sealed : (flow.rules name).mode = some .sealed)
    (refuses : Refuses (flow.rules name).body text) (before : Text) :
    flow.Yields (.rule name) .joined (.after before text) none := by
  refine .ruleFails ?_
  rw [sealed]
  exact refuses before

end

/-! ## Words -/

section

variable {rest text word : Text}

theorem not_prefix_of_stops {accepts : Char → Bool} {chars : Text}
    (starts : chars.head?.any accepts) (stops : text.Stops accepts) : ¬chars <+: text := by
  rintro ⟨tail, rfl⟩
  cases chars with
  | nil => cases starts
  | cons char chars =>
      rw [List.cons_append, Text.stops_cons] at stops
      exact absurd (starts.symm.trans stops) (by decide)

theorem refuses_wholeWord_of_stops {spelling : String} (spelled : isSpelled spelling.toList)
    (stops : text.Stops isWordStart) : Refuses (Rule.wholeWord spelling) text := by
  refine .sequence (.text (not_prefix_of_stops ?_ stops))
  cases letters : spelling.toList with
  | nil =>
      rw [letters] at spelled
      cases spelled
  | cons char chars =>
      rw [letters, isSpelled_cons] at spelled
      exact spelled.1

theorem refuses_wholeWordOf_of_stops {spellings : List String}
    (spelled : spellings.all fun spelling => isSpelled spelling.toList)
    (stops : text.Stops isWordStart) : Refuses (Rule.wholeWordOf spellings) text := by
  rcases choiceOf_words spellings text with ⟨spelling, member, beyond, rfl, -⟩ | ⟨-, refuses⟩
  · have here := List.all_eq_true.mp spelled spelling member
    cases letters : spelling.toList with
    | nil =>
        rw [letters] at here
        cases here
    | cons char chars =>
        rw [letters, isSpelled_cons] at here
        rw [letters, List.cons_append, Text.stops_cons] at stops
        exact absurd (here.1.symm.trans stops) (by decide)
  · exact .sequence refuses

/-- What comes first in a word. -/
theorem stops_spelled {accepts : Char → Bool} (spelled : isSpelled word)
    (plain : ∀ char, isWordStart char → accepts char = false) :
    Text.Stops accepts (word ++ rest) := by
  cases word with
  | nil => cases spelled
  | cons char chars => exact Text.stops_cons.mpr (plain char (isSpelled_cons.mp spelled).1)

/-- A word is one of several words, whatever follows it, or it is none of them. -/
theorem wholeWordOf_cases {spellings : List String}
    (allSpelled : spellings.all fun spelling => isSpelled spelling.toList)
    (apart : ∀ spelling ∈ spellings, ∀ other ∈ spellings,
      other.toList <+: spelling.toList → other = spelling)
    (spelled : isSpelled word) :
    (∀ {rest : Text}, rest.Stops isWordChar → Reads (Rule.wholeWordOf spellings) word rest) ∨
      ∀ {rest : Text}, rest.Stops isWordChar →
        Refuses (Rule.wholeWordOf spellings) (word ++ rest) := by
  have wordOnly : ∀ spelling ∈ spellings, ∀ char ∈ spelling.toList, isWordChar char :=
    fun spelling member => isWordChar_of_isSpelled (List.all_eq_true.mp allSpelled spelling member)
  by_cases among : ∃ spelling ∈ spellings, word = spelling.toList
  · obtain ⟨spelling, member, same⟩ := among
    exact .inl fun stops => reads_wholeWordOf stops wordOnly member (apart spelling member) same
  · refine .inr fun stops => refuses_wholeWordOf (isWordChar_of_isSpelled spelled) stops wordOnly ?_
    exact fun spelling member same => among ⟨spelling, member, same⟩

end

/-! ## Literals -/

section

variable {token rest text : Text} {sketches : List Sketch}

theorem misses_literal (triple : Misses (.rule .stringTriple) text)
    (single : Misses (.rule .stringSingle) text) (boolean : Misses (.rule .boolean) text)
    (duration : Misses (.rule .duration) text) (real : Misses (.rule .real) text)
    (integer : Misses (.rule .integer) text) : Misses (.rule .literal) text := by
  have body := triple.choice (single.choice (boolean.choice (duration.choice (real.choice integer))))
  exact fun before => .ruleFails (body before)

/-- A literal is a node around the node of its kind. -/
theorem Takes.literal
    (takes : Takes (flow.rules .literal).body token rest sketches) :
    Takes (.rule .literal) token rest [.node .literal [] sketches] := by
  intro before
  obtain ⟨nodes, yields, same⟩ := takes before
  refine ⟨_, Yields.rule yields, ?_⟩
  change [Sketch.node _ (contentOf _ _ _ _) (sketchAll _ nodes)] = _
  rw [same, contentOf, if_neg (by decide)]

/-- A token whose parts leave nodes of their own. -/
theorem takes_joined {name : Rule} {body : Expression Rule}
    (joined : flow.rules name = Rule.joinedRule body) (plain : name.isContent = false)
    (parts : ∀ before, ∃ nodes,
      flow.Yields body .joined (.after before (token ++ rest))
        (some ⟨nodes, .after (before ++ token) rest, []⟩) ∧
      sketchAll (before ++ (token ++ rest)) nodes = sketches) :
    Takes (.rule name) token rest [.node name [] sketches] := by
  intro before
  obtain ⟨nodes, yields, same⟩ := parts before
  have closed : flow.Yields (.rule name) .spaced (.after before (token ++ rest))
      (some (.close name (flow.rules name) .spaced (.after before (token ++ rest))
        ⟨nodes, .after (before ++ token) rest, []⟩)) := by
    refine .rule ?_
    rw [joined]
    exact yields
  refine ⟨[.node name before.byteSize (before ++ token).byteSize nodes], ?_, ?_⟩
  · simpa [Match.close, joined, Rule.joinedRule] using closed
  · simp only [sketchAll, Node.sketch, contentOf, plain, same]
    rfl

/-- Text between two marks. -/
theorem takes_quoted {name content : Rule} {mark inside : Text}
    (quoted : flow.rules name =
      Rule.joinedRule (sequenceOf [.text mark, .rule content, .text mark]))
    (plain : name.isContent = false) (sealed : (flow.rules content).mode = some .sealed)
    (captured : (flow.rules content).captured) (own : content.isContent)
    (reads : Reads (flow.rules content).body inside (mark ++ rest)) :
    Takes (.rule name) (mark ++ (inside ++ mark)) rest
      [.node name [] [.node content inside []]] := by
  refine takes_joined quoted plain fun before => ?_
  have opening : flow.Yields (.text mark) .joined
      (.after before (mark ++ (inside ++ (mark ++ rest)))) _ :=
    .text (Cursor.take?_after before mark _)
  have middle := Reads.part sealed captured reads (before ++ mark)
  have closing : flow.Yields (.text mark) .joined
      (.after (before ++ mark ++ inside) (mark ++ rest)) _ :=
    .text (Cursor.take?_after _ mark rest)
  have parts := opening.sequence .empty (middle.sequence .empty closing)
  have same : contentOf (before ++ mark ++ (inside ++ (mark ++ rest))) content
      (before ++ mark).byteSize (before ++ mark ++ inside).byteSize = inside :=
    contentOf_append own _ _ _
  refine ⟨_, by simpa [Match.chars, Match.append, sequenceOf] using parts, ?_⟩
  simp only [List.append_assoc, Text.byteSize_append] at same
  simp [sketchAll, Node.sketch, same]

theorem misses_quoted {name content : Rule} {mark : Text}
    (quoted : flow.rules name =
      Rule.joinedRule (sequenceOf [.text mark, .rule content, .text mark]))
    (starts : mark.head?.any (· == '\'')) (stops : text.Stops (· == '\'')) :
    Misses (.rule name) text := by
  intro before
  have opening : flow.Yields (.text mark) .joined (.after before text) none :=
    .textFails (Cursor.take?_eq_none (not_prefix_of_stops starts stops))
  refine .ruleFails ?_
  rw [quoted]
  exact .sequenceFails opening

/-- The marks stand around nothing that may be in the string. -/
theorem misses_quoted_content {name content : Rule} {mark : Text}
    (quoted : flow.rules name =
      Rule.joinedRule (sequenceOf [.text mark, .rule content, .text mark]))
    (sealed : (flow.rules content).mode = some .sealed)
    (refuses : Refuses (flow.rules content).body rest) : Misses (.rule name) (mark ++ rest) := by
  intro before
  have opening : flow.Yields (.text mark) .joined (.after before (mark ++ rest)) _ :=
    .text (Cursor.take?_after before mark rest)
  refine .ruleFails ?_
  rw [quoted]
  exact opening.sequenceBreaks .empty
    (.sequenceFails (Refuses.part sealed refuses (before ++ mark)))

/-- The closing mark is missing. -/
theorem misses_quoted_open {name content : Rule} {mark inside : Text}
    (quoted : flow.rules name =
      Rule.joinedRule (sequenceOf [.text mark, .rule content, .text mark]))
    (nonempty : mark ≠ []) (sealed : (flow.rules content).mode = some .sealed)
    (captured : (flow.rules content).captured)
    (reads : Reads (flow.rules content).body inside []) :
    Misses (.rule name) (mark ++ inside) := by
  intro before
  have opening : flow.Yields (.text mark) .joined (.after before (mark ++ inside)) _ :=
    .text (Cursor.take?_after before mark inside)
  have middle := Reads.part sealed captured reads (before ++ mark)
  rw [List.append_nil] at middle
  have closing : flow.Yields (.text mark) .joined (.after (before ++ mark ++ inside) []) none :=
    .textFails (Cursor.take?_eq_none (by simpa [List.prefix_nil] using nonempty))
  refine .ruleFails ?_
  rw [quoted]
  exact opening.sequenceBreaks .empty (middle.sequenceBreaks .empty closing)

end

/-! ## Numbers -/

section

variable {digits fraction rest text : Text}

theorem stops_isDigit (stops : rest.Stops isWordChar) : rest.Stops Char.isDigit :=
  stops.mono fun _ => isWordChar_of_isDigit

theorem stops_isWordStart (stops : rest.Stops isWordChar) : rest.Stops isWordStart :=
  stops.mono fun _ => isWordChar_of_isWordStart

theorem reads_digits (nonempty : digits ≠ []) (inside : ∀ char ∈ digits, char.isDigit)
    (stops : rest.Stops Char.isDigit) : Reads (oneOrMore (oneOf Char.isDigit)) digits rest := by
  cases digits with
  | nil => exact absurd rfl nonempty
  | cons char digits =>
      obtain ⟨first, others⟩ := List.forall_mem_cons.mp inside
      exact .sequence (.oneOf first) (.manyOneOf others stops)

theorem refuses_digits (stops : rest.Stops Char.isDigit) :
    Refuses (oneOrMore (oneOf Char.isDigit)) rest :=
  .sequence (.oneOf stops)

theorem reads_fraction (inside : ∀ char ∈ digits, char.isDigit) (nonempty : fraction ≠ [])
    (others : ∀ char ∈ fraction, char.isDigit) (stops : rest.Stops Char.isDigit) :
    Reads (flow.rules .real).body (digits ++ '.' :: fraction) rest :=
  .choice (.sequence (.manyOneOf inside (Text.stops_cons.mpr rfl))
    (.sequence .text (reads_digits nonempty others stops)))

theorem reads_point (nonempty : digits ≠ []) (inside : ∀ char ∈ digits, char.isDigit)
    (stops : rest.Stops isWordChar) : Reads (flow.rules .real).body (digits ++ ['.']) rest := by
  have point : Reads (word ".") ['.'] rest := .text
  have dot : Text.Stops Char.isDigit ('.' :: rest) := Text.stops_cons.mpr rfl
  have broken : Refuses (sequenceOf [many (oneOf Char.isDigit), word ".",
      oneOrMore (oneOf Char.isDigit)]) (digits ++ ('.' :: rest)) :=
    .sequenceBreaks (.manyOneOf inside dot)
      (.sequenceBreaks point (refuses_digits (stops_isDigit stops)))
  refine .choiceElse ?_ (.sequence (reads_digits nonempty inside dot)
    (.sequenceNil point (reads_wordEnd stops)))
  simpa using broken

/-- Digits are no real number if no point follows, or if a word follows the point. -/
theorem refuses_real (inside : ∀ char ∈ digits, char.isDigit) (stops : rest.Stops Char.isDigit)
    (point : ∀ tail, rest = '.' :: tail →
      Text.Stops Char.isDigit tail ∧ (digits ≠ [] → Refuses Rule.wordEnd tail)) :
    Refuses (flow.rules .real).body (digits ++ rest) := by
  by_cases dotted : ∃ tail, rest = '.' :: tail
  · obtain ⟨tail, rfl⟩ := dotted
    obtain ⟨noDigit, wordEnd⟩ := point tail rfl
    have dot : Reads (word ".") ['.'] tail := .text
    refine .choice (.sequenceBreaks (.manyOneOf inside stops)
      (.sequenceBreaks dot (refuses_digits noDigit))) ?_
    by_cases nonempty : digits = []
    · subst nonempty
      exact .sequence (refuses_digits stops)
    · exact .sequenceBreaks (reads_digits nonempty inside stops)
        (.sequenceBreaks dot (wordEnd nonempty))
  · have noDot : Refuses (word ".") rest := by
      refine .text ?_
      rintro ⟨tail, rfl⟩
      exact dotted ⟨tail, rfl⟩
    refine .choice (.sequenceBreaks (.manyOneOf inside stops) (.sequence noDot)) ?_
    by_cases nonempty : digits = []
    · subst nonempty
      exact .sequence (refuses_digits stops)
    · exact .sequenceBreaks (reads_digits nonempty inside stops) (.sequence noDot)

theorem reads_integer (nonempty : digits ≠ []) (inside : ∀ char ∈ digits, char.isDigit)
    (stops : rest.Stops isWordChar) : Reads (flow.rules .integer).body digits rest :=
  .sequenceNil (reads_digits nonempty inside (stops_isDigit stops)) (reads_wordEnd stops)

theorem unitWords_spelled : unitWords.all fun unit => isSpelled unit.toList := by decide

theorem takes_duration {unit : String} (nonempty : digits ≠ [])
    (inside : ∀ char ∈ digits, char.isDigit) (member : unit ∈ unitWords)
    (stops : rest.Stops isWordChar) :
    Takes (.rule .duration) (digits ++ unit.toList) rest
      [.node .duration [] [.node .durationCount digits [], .node .durationUnit unit.toList []]] := by
  have letters : ∀ unit ∈ unitWords, ∀ char ∈ unit.toList, isWordChar char := fun unit member =>
    isWordChar_of_isSpelled (List.all_eq_true.mp unitWords_spelled unit member)
  have first : Text.Stops Char.isDigit (unit.toList ++ rest) := by
    have spelled := List.all_eq_true.mp unitWords_spelled unit member
    cases same : unit.toList with
    | nil =>
        rw [same] at spelled
        cases spelled
    | cons char chars =>
        rw [same, isSpelled_cons] at spelled
        exact Text.stops_cons.mpr (not_isDigit_of_isWordStart spelled.1)
  have apart : ∀ unit ∈ unitWords, ∀ other ∈ unitWords, other.toList <+: unit.toList →
      other = unit := by decide
  refine takes_joined rfl rfl fun before => ?_
  have countReads : Reads (flow.rules .durationCount).body digits (unit.toList ++ rest) :=
    reads_digits nonempty inside first
  have unitReads : Reads (flow.rules .durationUnit).body unit.toList rest :=
    reads_wholeWordOf stops letters member (apart unit member) rfl
  have count := Reads.part rfl rfl countReads before
  have parts := count.sequence .empty (Reads.part rfl rfl unitReads (before ++ digits))
  have countText : contentOf (before ++ (digits ++ (unit.toList ++ rest))) .durationCount
      before.byteSize (before ++ digits).byteSize = digits := contentOf_append rfl _ _ _
  have unitText : contentOf (before ++ digits ++ (unit.toList ++ rest)) .durationUnit
      (before ++ digits).byteSize (before ++ digits ++ unit.toList).byteSize = unit.toList :=
    contentOf_append rfl _ _ _
  refine ⟨_, by simpa [Match.append] using parts, ?_⟩
  simp only [List.append_assoc, Text.byteSize_append] at countText unitText
  simp [sketchAll, Node.sketch, countText, unitText]

theorem misses_duration_of_stops (stops : text.Stops Char.isDigit) :
    Misses (.rule .duration) text := by
  have count : Refuses (flow.rules .durationCount).body text := refuses_digits stops
  exact fun before => .ruleFails (.sequenceFails (Refuses.part rfl count before))

theorem misses_duration (nonempty : digits ≠ []) (inside : ∀ char ∈ digits, char.isDigit)
    (stops : rest.Stops Char.isDigit) (unit : Refuses (Rule.wholeWordOf unitWords) rest) :
    Misses (.rule .duration) (digits ++ rest) := by
  have count : Reads (flow.rules .durationCount).body digits rest :=
    reads_digits nonempty inside stops
  have unit : Refuses (flow.rules .durationUnit).body rest := unit
  exact fun before => .ruleFails (.sequenceBreaks (Reads.part rfl rfl count before) .empty
    (Refuses.part rfl unit (before ++ digits)))

end

/-! ## Strings -/

section

variable {inside rest text : Text} {mark : Text}

/-- What a string consists of: characters where its closing mark does not begin. -/
def stringItem (mark : Text) : Expression Rule := sequence (absent (.text mark)) anyChar

theorem reads_stringItem {char : Char} (goesOn : ¬mark <+: char :: rest) :
    Reads (stringItem mark) [char] rest :=
  .sequence (.absent (.text goesOn)) (reads_anyChar char)

theorem refuses_stringItem : Refuses (stringItem mark) (mark ++ rest) :=
  .sequence (.absent .text)

theorem refuses_stringItem_nil (nonempty : mark ≠ []) : Refuses (stringItem mark) [] := by
  have closing : Reads (absent (.text mark)) [] [] := by
    refine .absent (.text ?_)
    rwa [List.prefix_nil]
  exact .sequenceBreaks closing (.oneOf (Text.stops_nil _))

/-- A string is read up to where its closing mark begins for the first time. -/
theorem reads_stringItems (ends : Refuses (stringItem mark) rest)
    (apart : ∀ before after, inside = before ++ after → after ≠ [] → ¬mark <+: after ++ rest) :
    Reads (many (stringItem mark)) inside rest := by
  induction inside with
  | nil => exact .manyEnds ends
  | cons char inside ih =>
      have others := ih fun before after same =>
        apart (char :: before) after (congrArg (char :: ·) same)
      exact .many (reads_stringItem (apart [] _ rfl (List.cons_ne_nil _ _))) others

/-- A mark of one character that does not occur. -/
theorem apart_of_not_mem {quote : Char} (absent : quote ∉ inside) {before after : Text}
    (same : inside = before ++ after) (nonempty : after ≠ []) : ¬[quote] <+: after ++ rest := by
  subst same
  cases after with
  | nil => exact absurd rfl nonempty
  | cons char after =>
      rintro ⟨tail, starts⟩
      cases starts
      exact absent (by simp)

/-- A mark that does not begin inside and does not end at the first characters behind. -/
theorem apart_of_not_infix {short : Text} (absent : ¬mark <:+: inside ++ short)
    (starts : short <+: rest) (size : mark.length ≤ short.length + 1) {before after : Text}
    (same : inside = before ++ after) (nonempty : after ≠ []) : ¬mark <+: after ++ rest := by
  intro begins
  obtain ⟨beyond, rfl⟩ := starts
  subst same
  have long : mark.length ≤ (after ++ short).length := by
    have := List.length_pos_iff.mpr nonempty
    rw [List.length_append]
    omega
  rw [← List.append_assoc] at begins
  have within : mark <+: after ++ short :=
    List.prefix_of_prefix_length_le begins (List.prefix_append _ _) long
  refine absent (within.isInfix.trans ?_)
  rw [List.append_assoc]
  exact (List.suffix_append before _).isInfix

theorem reads_stringSingleContent (nonempty : inside ≠ []) (absent : '\'' ∉ inside)
    (ends : Refuses (stringItem ['\'']) rest) :
    Reads (flow.rules .stringSingleContent).body inside rest := by
  cases inside with
  | nil => exact absurd rfl nonempty
  | cons char inside =>
      have first : Reads (stringItem ['\'']) [char] (inside ++ rest) :=
        reads_stringItem (apart_of_not_mem absent (List.nil_append _).symm (List.cons_ne_nil _ _))
      have others : Reads (many (stringItem ['\''])) inside rest :=
        reads_stringItems ends fun _ _ =>
          apart_of_not_mem fun member => absent (List.mem_cons_of_mem _ member)
      exact .sequence first others

theorem takes_stringSingle (nonempty : inside ≠ []) (absent : '\'' ∉ inside) :
    Takes (.rule .stringSingle) ('\'' :: (inside ++ ['\''])) rest
      [.node .stringSingle [] [.node .stringSingleContent inside []]] :=
  takes_quoted rfl rfl rfl rfl rfl
    (reads_stringSingleContent nonempty absent refuses_stringItem)

theorem takes_stringTriple (absent : ¬closesString <:+: inside ++ ['\'', '\'']) :
    Takes (.rule .stringTriple) (closesString ++ (inside ++ closesString)) rest
      [.node .stringTriple [] [.node .stringTripleContent inside []]] := by
  have content : Reads (flow.rules .stringTripleContent).body inside (closesString ++ rest) :=
    reads_stringItems refuses_stringItem fun _ _ =>
      apart_of_not_infix absent ⟨'\'' :: rest, rfl⟩ (by decide)
  exact takes_quoted rfl rfl rfl rfl rfl content

end

/-! ## Tokens and literals -/

section

variable {token digits rest text : Text}

/-- The expression does with the token what it does when the token stands alone. -/
def Settled (expression : Expression Rule) (token rest : Text) : Prop :=
  (∃ sketches, Takes expression token rest sketches ∧ Takes expression token [] sketches) ∨
    (Misses expression (token ++ rest) ∧ Misses expression token)

theorem Settled.misses {expression : Expression Rule}
    (misses : ∀ rest, Misses expression (token ++ rest)) : Settled expression token rest := by
  have alone := misses []
  rw [List.append_nil] at alone
  exact .inr ⟨misses rest, alone⟩

theorem Text.stops_append {accepts : Char → Bool} (nonempty : token ≠ [])
    (stops : token.Stops accepts) : Text.Stops accepts (token ++ rest) := by
  cases token with
  | nil => exact absurd rfl nonempty
  | cons char token => exact Text.stops_cons.mpr (Text.stops_cons.mp stops)

/-- Quotes and letters start strings, names and truth values. -/
def startsOther (char : Char) : Bool := char == '\'' || isWordStart char

theorem stringTriple_quoted : flow.rules .stringTriple = Rule.joinedRule (sequenceOf
    [.text closesString, .rule .stringTripleContent, .text closesString]) := rfl

theorem stringSingle_quoted : flow.rules .stringSingle = Rule.joinedRule (sequenceOf
    [.text ['\''], .rule .stringSingleContent, .text ['\'']]) := rfl

theorem misses_stringTriple (stops : text.Stops (· == '\'')) :
    Misses (.rule .stringTriple) text :=
  misses_quoted stringTriple_quoted (by decide) stops

theorem misses_stringSingle (stops : text.Stops (· == '\'')) :
    Misses (.rule .stringSingle) text :=
  misses_quoted stringSingle_quoted (by decide) stops

theorem misses_others (stops : text.Stops startsOther) :
    Misses (.rule .stringTriple) text ∧ Misses (.rule .stringSingle) text ∧
      Misses (.rule .boolean) text := by
  have quotes : text.Stops (· == '\'') := stops.mono fun char quote => by
    rw [startsOther, quote, Bool.true_or]
  have letters : text.Stops isWordStart := stops.mono fun char letter => by
    rw [startsOther, letter, Bool.or_true]
  exact ⟨misses_stringTriple quotes, misses_stringSingle quotes,
    Refuses.misses rfl (refuses_wholeWordOf_of_stops (by decide) letters)⟩

theorem isDigit_startsOther {char : Char} (digit : char.isDigit) : startsOther char = false := by
  rw [startsOther, not_isWordStart_of_isDigit digit, Bool.or_false, beq_eq_false_iff_ne]
  exact ne_of_isWordChar (isWordChar_of_isDigit digit) (by decide)

theorem stops_digits (nonempty : digits ≠ []) (inside : ∀ char ∈ digits, char.isDigit) :
    Text.Stops startsOther (digits ++ rest) := by
  cases digits with
  | nil => exact absurd rfl nonempty
  | cons char digits =>
      exact Text.stops_cons.mpr (isDigit_startsOther (inside char List.mem_cons_self))

theorem misses_integer_of_stops (stops : text.Stops Char.isDigit) :
    Misses (.rule .integer) text :=
  Refuses.misses rfl (.sequence (refuses_digits stops))

/-- Nothing that a literal can start with comes next. -/
theorem misses_literal_of_stops (stops : text.Stops startsOther)
    (noDigit : text.Stops Char.isDigit)
    (point : ∀ tail, text = '.' :: tail → Text.Stops Char.isDigit tail) :
    Misses (.rule .literal) text := by
  obtain ⟨triple, single, boolean⟩ := misses_others stops
  have real : Refuses (flow.rules .real).body ([] ++ text) :=
    refuses_real nofun noDigit fun tail same => ⟨point tail same, fun none => absurd rfl none⟩
  exact misses_literal triple single boolean (misses_duration_of_stops noDigit)
    (Refuses.misses rfl real) (misses_integer_of_stops noDigit)

theorem takes_literal_duration {unit : String} (nonempty : digits ≠ [])
    (inside : ∀ char ∈ digits, char.isDigit) (member : unit ∈ unitWords)
    (stops : rest.Stops isWordChar) :
    Takes (.rule .literal) (digits ++ unit.toList) rest [.node .literal []
      [.node .duration [] [.node .durationCount digits [], .node .durationUnit unit.toList []]]] := by
  have other : Text.Stops startsOther (digits ++ unit.toList ++ rest) := by
    rw [List.append_assoc]
    exact stops_digits nonempty inside
  obtain ⟨triple, single, boolean⟩ := misses_others other
  exact .literal (.choiceElse triple (.choiceElse single (.choiceElse boolean
    (.choice (takes_duration nonempty inside member stops)))))

theorem takes_literal_real (other : Text.Stops startsOther (token ++ rest))
    (duration : Misses (.rule .duration) (token ++ rest))
    (reads : Reads (flow.rules .real).body token rest) :
    Takes (.rule .literal) token rest [.node .literal [] (ownSketch .real token)] := by
  obtain ⟨triple, single, boolean⟩ := misses_others other
  exact .literal (.choiceElse triple (.choiceElse single (.choiceElse boolean
    (.choiceElse duration (.choice (Reads.takes rfl reads))))))

/-- Digits with a point are no duration. -/
theorem misses_duration_of_point (inside : ∀ char ∈ digits, char.isDigit) :
    Misses (.rule .duration) (digits ++ '.' :: rest) := by
  have dot : Text.Stops Char.isDigit ('.' :: rest) := Text.stops_cons.mpr rfl
  by_cases nonempty : digits = []
  · subst nonempty
    exact misses_duration_of_stops dot
  · exact misses_duration nonempty inside dot
      (refuses_wholeWordOf_of_stops unitWords_spelled (Text.stops_cons.mpr rfl))

theorem takes_literal_fraction {fraction : Text} (inside : ∀ char ∈ digits, char.isDigit)
    (nonempty : fraction ≠ []) (others : ∀ char ∈ fraction, char.isDigit)
    (stops : rest.Stops Char.isDigit) :
    Takes (.rule .literal) (digits ++ '.' :: fraction) rest
      [.node .literal [] (ownSketch .real (digits ++ '.' :: fraction))] := by
  have split : digits ++ '.' :: fraction ++ rest = digits ++ '.' :: (fraction ++ rest) := by simp
  refine takes_literal_real ?_ ?_ (reads_fraction inside nonempty others stops)
  · rw [split]
    by_cases empty : digits = []
    · subst empty
      exact Text.stops_cons.mpr rfl
    · exact stops_digits empty inside
  · rw [split]
    exact misses_duration_of_point inside

theorem takes_literal_point (nonempty : digits ≠ []) (inside : ∀ char ∈ digits, char.isDigit)
    (stops : rest.Stops isWordChar) :
    Takes (.rule .literal) (digits ++ ['.']) rest
      [.node .literal [] (ownSketch .real (digits ++ ['.']))] := by
  have split : digits ++ ['.'] ++ rest = digits ++ '.' :: rest := by simp
  refine takes_literal_real ?_ ?_ (reads_point nonempty inside stops)
  · rw [split]
    exact stops_digits nonempty inside
  · rw [split]
    exact misses_duration_of_point inside

/-- Digits that no letter follows, and no point unless a word follows that. -/
theorem takes_literal_integer (nonempty : digits ≠ []) (inside : ∀ char ∈ digits, char.isDigit)
    (stops : rest.Stops isWordChar)
    (point : ∀ tail, rest = '.' :: tail → ∃ char beyond, tail = char :: beyond ∧ isWordStart char) :
    Takes (.rule .literal) digits rest [.node .literal [] (ownSketch .integer digits)] := by
  obtain ⟨triple, single, boolean⟩ := misses_others (stops_digits nonempty inside)
  have duration : Misses (.rule .duration) (digits ++ rest) :=
    misses_duration nonempty inside (stops_isDigit stops)
      (refuses_wholeWordOf_of_stops unitWords_spelled (stops_isWordStart stops))
  have real : Refuses (flow.rules .real).body (digits ++ rest) := by
    refine refuses_real inside (stops_isDigit stops) fun tail same => ?_
    obtain ⟨char, beyond, rfl, start⟩ := point tail same
    exact ⟨Text.stops_cons.mpr (not_isDigit_of_isWordStart start),
      fun _ => refuses_wordEnd (isWordChar_of_isWordStart start)⟩
  exact .literal (.choiceElse triple (.choiceElse single (.choiceElse boolean
    (.choiceElse duration (.choiceElse (Refuses.misses rfl real)
      (Reads.takes rfl (reads_integer nonempty inside stops)))))))

theorem takes_literal_single {inside : Text} (nonempty : inside ≠ []) (absent : '\'' ∉ inside) :
    Takes (.rule .literal) ('\'' :: (inside ++ ['\''])) rest [.node .literal []
      [.node .stringSingle [] [.node .stringSingleContent inside []]]] := by
  have triple : Misses (.rule .stringTriple) ('\'' :: (inside ++ ['\'']) ++ rest) := by
    intro before
    have opening : flow.Yields (.text closesString) .joined
        (.after before ('\'' :: (inside ++ ['\'']) ++ rest)) none := by
      refine .textFails (Cursor.take?_eq_none ?_)
      rintro ⟨tail, same⟩
      cases inside with
      | nil => exact absurd rfl nonempty
      | cons char inside =>
          injection same with _ same
          injection same with same
          exact absent (same ▸ List.mem_cons_self)
    exact .ruleFails (.sequenceFails opening)
  exact .literal (.choiceElse triple (.choice (takes_stringSingle nonempty absent)))

theorem takes_literal_triple {inside : Text} (absent : ¬closesString <:+: inside ++ ['\'', '\'']) :
    Takes (.rule .literal) (closesString ++ (inside ++ closesString)) rest [.node .literal []
      [.node .stringTriple [] [.node .stringTripleContent inside []]]] :=
  .literal (.choice (takes_stringTriple absent))

theorem misses_string_word (spelled : isSpelled token) (rest : Text) :
    Misses (.rule .stringTriple) (token ++ rest) ∧ Misses (.rule .stringSingle) (token ++ rest) := by
  have quotes : Text.Stops (· == '\'') (token ++ rest) :=
    stops_spelled spelled fun char start => beq_eq_false_iff_ne.mpr
      (ne_of_isWordChar (isWordChar_of_isWordStart start) (by decide))
  exact ⟨misses_stringTriple quotes, misses_stringSingle quotes⟩

theorem takes_literal_boolean (spelled : isSpelled token)
    (reads : Reads (flow.rules .boolean).body token rest) :
    Takes (.rule .literal) token rest [.node .literal [] (ownSketch .boolean token)] := by
  obtain ⟨triple, single⟩ := misses_string_word spelled rest
  exact .literal (.choiceElse triple (.choiceElse single (.choice (Reads.takes rfl reads))))

/-- A word that is no truth value is no literal. -/
theorem misses_literal_word (spelled : isSpelled token)
    (refuses : Refuses (flow.rules .boolean).body (token ++ rest)) :
    Misses (.rule .literal) (token ++ rest) := by
  obtain ⟨triple, single⟩ := misses_string_word spelled rest
  have noDigit : Text.Stops Char.isDigit (token ++ rest) :=
    stops_spelled spelled fun char => not_isDigit_of_isWordStart
  have real : Refuses (flow.rules .real).body ([] ++ (token ++ rest)) := by
    refine refuses_real nofun noDigit fun tail same => ?_
    have dot : Text.Stops (· == '.') (token ++ rest) :=
      stops_spelled spelled fun char start => beq_eq_false_iff_ne.mpr
        (ne_of_isWordChar (isWordChar_of_isWordStart start) (by decide))
    rw [same] at dot
    exact absurd (Text.stops_cons.mp dot) (by decide)
  exact misses_literal triple single (Refuses.misses rfl refuses)
    (misses_duration_of_stops noDigit) (Refuses.misses rfl real) (misses_integer_of_stops noDigit)

theorem literal_word (spelled : isSpelled token) (stops : rest.Stops isWordChar) :
    Settled (.rule .literal) token rest := by
  have apart : ∀ spelling ∈ ["true", "false"], ∀ other ∈ ["true", "false"],
      other.toList <+: spelling.toList → other = spelling := by decide
  rcases wholeWordOf_cases (by decide) apart spelled with reads | refuses
  · exact .inl ⟨_, takes_literal_boolean spelled (reads stops),
      takes_literal_boolean spelled (reads (Text.stops_nil _))⟩
  · have alone := misses_literal_word spelled (refuses (Text.stops_nil _))
    rw [List.append_nil] at alone
    exact .inr ⟨misses_literal_word spelled (refuses stops), alone⟩

theorem Lexeme.literal (lexeme : Lexeme token rest) : Settled (.rule .literal) token rest := by
  cases lexeme with
  | word start others stops => exact literal_word (isSpelled_cons.mpr ⟨start, others⟩) stops
  | duration nonempty inside member stops =>
      exact .inl ⟨_, takes_literal_duration nonempty inside member stops,
        takes_literal_duration nonempty inside member (Text.stops_nil _)⟩
  | fraction inside nonempty others stops =>
      exact .inl ⟨_, takes_literal_fraction inside nonempty others stops,
        takes_literal_fraction inside nonempty others (Text.stops_nil _)⟩
  | point nonempty inside stops =>
      exact .inl ⟨_, takes_literal_point nonempty inside stops,
        takes_literal_point nonempty inside (Text.stops_nil _)⟩
  | integer nonempty inside stops =>
      have words : rest.Stops isWordChar := stops.mono fun char inWord => by
        rw [inWord, Bool.true_or]
      refine .inl ⟨_, takes_literal_integer nonempty inside words ?_,
        takes_literal_integer nonempty inside (Text.stops_nil _) nofun⟩
      rintro tail rfl
      exact absurd (Text.stops_cons.mp stops) (by decide)
  | single nonempty absent =>
      exact .inl ⟨_, takes_literal_single nonempty absent, takes_literal_single nonempty absent⟩
  | triple absent => exact .inl ⟨_, takes_literal_triple absent, takes_literal_triple absent⟩
  | @symbol char rest member stops =>
      have plain : ∀ char ∈ singles, startsOther char = false ∧ char.isDigit = false :=
        forall_singles (by decide)
      obtain ⟨other, noDigit⟩ := plain char member
      have misses : ∀ rest : Text, rest.Stops (joins char) →
          Misses (.rule .literal) (char :: rest) := by
        intro rest stops
        refine misses_literal_of_stops (Text.stops_cons.mpr other) (Text.stops_cons.mpr noDigit) ?_
        rintro tail ⟨⟩
        refine stops.mono fun next digit => ?_
        simp [joins, digit]
      exact .inr ⟨misses rest stops, misses [] (Text.stops_nil _)⟩
  | pair member =>
      have plain : ∀ chars ∈ doubles, chars ≠ [] ∧ chars.Stops startsOther ∧
          chars.Stops Char.isDigit ∧ chars.Stops (· == '.') := by
        decide
      obtain ⟨nonempty, other, noDigit, dot⟩ := plain token member
      refine .misses fun rest => misses_literal_of_stops (Text.stops_append nonempty other)
        (Text.stops_append nonempty noDigit) fun tail same => ?_
      have noDot : Text.Stops (· == '.') (token ++ rest) := Text.stops_append nonempty dot
      rw [same] at noDot
      exact absurd (Text.stops_cons.mp noDot) (by decide)

theorem Cut.literal (cut : Cut token rest) : Settled (.rule .literal) token rest := by
  obtain ⟨char, tail, rfl, start⟩ := cut.point
  refine .inl ⟨_, takes_literal_integer cut.nonempty cut.digits (Text.stops_cons.mpr rfl) ?_,
    takes_literal_integer cut.nonempty cut.digits (Text.stops_nil _) nofun⟩
  rintro beyond ⟨⟩
  exact ⟨char, tail, rfl, start⟩

end

end FlowScript.Grammar
