import FlowScript.Proofs.Grammar.Skipping

/-!
# Tokens by themselves

Which stretches of text are tokens. Whether characters are a token depends on them and on
what comes next; most often on one character of it.
-/

set_option autoImplicit false

namespace FlowScript.Grammar

open Expression hiding rule

/-! ## Sketches -/

/-- A parse tree without positions. Nodes that stand for characters of their own keep
their text. -/
inductive Sketch where
  | node (rule : Rule) (text : Text) (children : List Sketch)

/-- The rules whose text is read. -/
def Rule.isContent : Rule → Bool
  | .identifier | .stringTripleContent | .stringSingleContent | .boolean | .durationCount
  | .durationUnit | .real | .integer => true
  | _ => false

def contentOf (source : Text) (rule : Rule) (start stop : Nat) : Text :=
  if rule.isContent then (source.slice? start stop).getD [] else []

mutual

def Node.sketch (source : Text) (tree : Node Rule) : Sketch :=
  match tree with
  | .node rule start stop children =>
      .node rule (contentOf source rule start stop) (sketchAll source children)
termination_by structural tree

def sketchAll (source : Text) (trees : List (Node Rule)) : List Sketch :=
  match trees with
  | [] => []
  | tree :: rest => tree.sketch source :: sketchAll source rest
termination_by structural trees

end

theorem sketchAll_eq_map (source : Text) (trees : List (Node Rule)) :
    sketchAll source trees = trees.map (Node.sketch source) := by
  induction trees with
  | nil => rfl
  | cons tree trees ih => simp only [sketchAll, List.map_cons, ih]

theorem sketchAll_append (source : Text) (left right : List (Node Rule)) :
    sketchAll source (left ++ right) = sketchAll source left ++ sketchAll source right := by
  simp only [sketchAll_eq_map, List.map_append]

section

variable {source : Text} {trees : List (Node Rule)} {sketch : Sketch} {more : List Sketch}

theorem sketchAll_eq_nil (same : sketchAll source trees = []) : trees = [] := by
  rw [sketchAll_eq_map] at same
  exact List.map_eq_nil_iff.mp same

theorem sketchAll_eq_cons (same : sketchAll source trees = sketch :: more) :
    ∃ tree others, trees = tree :: others ∧ tree.sketch source = sketch ∧
      sketchAll source others = more := by
  simp only [sketchAll_eq_map] at same ⊢
  exact List.map_eq_cons_iff.mp same

theorem sketchAll_eq_single (same : sketchAll source trees = [sketch]) :
    ∃ tree, trees = [tree] ∧ tree.sketch source = sketch := by
  rw [sketchAll_eq_map] at same
  exact List.map_eq_singleton_iff.mp same

theorem sketch_eq_node {tree : Node Rule} {rule : Rule} {content : Text} {inside : List Sketch}
    (same : tree.sketch source = .node rule content inside) :
    ∃ start stop children, tree = .node rule start stop children ∧
      contentOf source rule start stop = content ∧ sketchAll source children = inside := by
  obtain ⟨other, start, stop, children⟩ := tree
  obtain ⟨rfl, covered, sketched⟩ := Sketch.node.inj same
  exact ⟨start, stop, children, rfl, covered, sketched⟩

end

theorem contentOf_append {rule : Rule} (content : rule.isContent) (before inside after : Text) :
    contentOf (before ++ (inside ++ after)) rule before.byteSize (before ++ inside).byteSize =
      inside := by
  rw [contentOf, if_pos content, Text.slice?_append]
  rfl

/-! ## Lexemes -/

/-- The symbols of one character. -/
def singles : List Char :=
  ['\x7b', '\x7d', '(', ')', '[', ']', ',', ';', ':', '=', '.', '<', '>', '+', '-', '*', '/']

/-- What is checked symbol by symbol. Deciding it as a property of all characters would
go through every character there is. -/
theorem forall_singles {property : Char → Prop} [DecidablePred property]
    (checked : singles.all fun char => decide (property char)) :
    ∀ char ∈ singles, property char := by
  simpa using checked

/-- The symbols of two characters. -/
def doubles : List Text := [['=', '='], ['!', '='], ['<', '='], ['>', '='], ['-', '>']]

/-- Two characters that belong together: to a symbol, a comment or a number. -/
def joins (char next : Char) : Bool :=
  [char, next] ∈ doubles || (char == '/' && (next == '/' || next == '*')) ||
    (char == '.' && next.isDigit)

def closesString : Text := ['\'', '\'', '\'']

/-- The characters are one token, and the rest does not belong to it. -/
inductive Lexeme : Text → Text → Prop where
  | word {char : Char} {chars rest : Text} :
      isWordStart char → (∀ char ∈ chars, isWordChar char) → rest.Stops isWordChar →
      Lexeme (char :: chars) rest
  | duration {digits rest : Text} {unit : String} :
      digits ≠ [] → (∀ char ∈ digits, char.isDigit) → unit ∈ unitWords →
      rest.Stops isWordChar → Lexeme (digits ++ unit.toList) rest
  | fraction {digits fraction rest : Text} :
      (∀ char ∈ digits, char.isDigit) → fraction ≠ [] → (∀ char ∈ fraction, char.isDigit) →
      rest.Stops Char.isDigit → Lexeme (digits ++ '.' :: fraction) rest
  | point {digits rest : Text} :
      digits ≠ [] → (∀ char ∈ digits, char.isDigit) → rest.Stops isWordChar →
      Lexeme (digits ++ ['.']) rest
  | integer {digits rest : Text} :
      digits ≠ [] → (∀ char ∈ digits, char.isDigit) →
      rest.Stops (fun char => isWordChar char || char == '.') → Lexeme digits rest
  | single {body rest : Text} :
      body ≠ [] → '\'' ∉ body → Lexeme ('\'' :: (body ++ ['\''])) rest
  | triple {body rest : Text} :
      ¬closesString <:+: body ++ ['\'', '\''] →
      Lexeme (closesString ++ (body ++ closesString)) rest
  | symbol {char : Char} {rest : Text} :
      char ∈ singles → rest.Stops (joins char) → Lexeme [char] rest
  | pair {chars rest : Text} : chars ∈ doubles → Lexeme chars rest

/-- Digits before a point that is not part of the number, since a word follows it. -/
structure Cut (digits rest : Text) : Prop where
  nonempty : digits ≠ []
  digits : ∀ char ∈ digits, char.isDigit
  point : ∃ char tail, rest = '.' :: char :: tail ∧ isWordStart char

/-! ## Characters -/

theorem isWordChar_iff (char : Char) :
    isWordChar char ↔ isWordStart char ∨ char.isDigit := by
  simp only [isWordStart, isWordChar, Char.isAlphanum, Bool.or_eq_true]
  constructor
  · rintro ((alpha | digit) | other)
    · exact .inl (.inl alpha)
    · exact .inr digit
    · exact .inl (.inr other)
  · rintro ((alpha | other) | digit)
    · exact .inl (.inl alpha)
    · exact .inr other
    · exact .inl (.inr digit)

theorem isWordChar_of_isDigit {char : Char} (digit : char.isDigit) : isWordChar char :=
  (isWordChar_iff char).mpr (.inr digit)

theorem isWordChar_of_isWordStart {char : Char} (start : isWordStart char) : isWordChar char :=
  (isWordChar_iff char).mpr (.inl start)

theorem isDigit_toNat {char : Char} (digit : char.isDigit) :
    48 ≤ char.toNat ∧ char.toNat ≤ 57 := by
  simp only [Char.isDigit, Bool.and_eq_true, decide_eq_true_eq, UInt32.le_iff_toNat_le,
    ge_iff_le] at digit
  exact digit

theorem not_isWordStart_of_isDigit {char : Char} (digit : char.isDigit) :
    isWordStart char = false := by
  obtain ⟨low, high⟩ := isDigit_toNat digit
  apply Bool.eq_false_iff.mpr
  intro start
  delta isWordStart Char.isAlpha Char.isUpper Char.isLower at start
  simp only [Bool.or_eq_true, Bool.and_eq_true, decide_eq_true_eq, UInt32.le_iff_toNat_le,
    ge_iff_le, beq_iff_eq] at start
  change ((65 ≤ char.toNat ∧ char.toNat ≤ 90) ∨ (97 ≤ char.toNat ∧ char.toNat ≤ 122)) ∨
    char = '_' at start
  rcases start with (upper | lower) | rfl
  · omega
  · omega
  · revert high
    decide

theorem not_isDigit_of_isWordStart {char : Char} (start : isWordStart char) :
    char.isDigit = false := by
  apply Bool.eq_false_iff.mpr
  intro digit
  exact absurd (start.symm.trans (not_isWordStart_of_isDigit digit)) (by decide)

/-- A character that is neither a letter, a digit nor an underscore. -/
theorem ne_of_isWordChar {char other : Char} (inWord : isWordChar char)
    (outside : isWordChar other = false) : char ≠ other := by
  rintro rfl
  exact absurd (inWord.symm.trans outside) (by decide)

/-- Holds for what is written like a name. -/
def isSpelled : Text → Bool
  | [] => false
  | char :: chars => isWordStart char && chars.all isWordChar

theorem isSpelled_cons {char : Char} {chars : Text} :
    isSpelled (char :: chars) ↔ isWordStart char ∧ ∀ char ∈ chars, isWordChar char := by
  rw [isSpelled, Bool.and_eq_true, List.all_eq_true]

theorem isWordChar_of_isSpelled {word : Text} (spelled : isSpelled word) :
    ∀ char ∈ word, isWordChar char := by
  cases word with
  | nil => nofun
  | cons char chars =>
      obtain ⟨start, others⟩ := isSpelled_cons.mp spelled
      exact List.forall_mem_cons.mpr ⟨isWordChar_of_isWordStart start, others⟩

end FlowScript.Grammar
