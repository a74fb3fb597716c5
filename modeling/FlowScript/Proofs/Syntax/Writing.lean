import FlowScript.Proofs.Grammar.Row
import FlowScript.Proofs.Syntax.Likeness
import FlowScript.Proofs.Syntax.Parsing

/-!
# Scripts by their words

Whether a text is a script, and which one apart from spans, depends on the words of the
text alone: the words decide the sketches of the statements, and a sketch decides the
statement.
-/

set_option autoImplicit false

namespace FlowScript

open FlowScript.Grammar

/-! ## From texts to words -/

namespace Grammar

/-- All that a program is, apart from trivia before it. -/
def programBody : Expression Rule := .sequence (.many (.rule .statement)) (.rule .endOfInput)

/-- The words are statements with these sketches. -/
def Writes (words : List Text) (sketches : List Sketch) : Prop :=
  Derives (.many (.rule .statement)) words (some (sketches, []))

theorem Writes.program {words : List Text} {sketches : List Sketch}
    (writes : Writes words sketches) : Derives programBody words (some (sketches, [])) := by
  have ends : Derives (.rule .endOfInput) [] (some ([], [])) := .rule rfl .endOfInput
  have whole : Derives programBody words (some (sketches ++ [], [])) := .sequence writes ends
  rwa [List.append_nil] at whole

theorem writes_of_program {words rest : List Text} {sketches : List Sketch}
    (derives : Derives programBody words (some (sketches, rest))) :
    rest = [] ∧ Writes words sketches := by
  cases derives with
  | sequence statements ends =>
      cases ends with
      | leaf leaf => cases leaf
      | rule _ body =>
          cases body
          rw [show Rule.wrap .endOfInput [] = [] from rfl, List.append_nil]
          exact ⟨rfl, statements⟩

theorem Writes.proper {words : List Text} {sketches : List Sketch}
    (writes : Writes words sketches) : Proper words := by
  obtain ⟨used, rfl, spells⟩ := Derives.spells writes
  rw [List.append_nil]
  exact ⟨spells.known (by decide), spells.chain (by decide) (by decide)⟩

variable {text : Text} {tokens : List Token}

/-- What the grammar makes of the words of a text. -/
def Follow (text : Text) (tokens : List Token) : Option (Match Rule) → Prop
  | none => Derives programBody (words tokens) none
  | some found =>
      found.tokens = tokens.map Token.stretch ∧ Writes (words tokens) (sketchAll text found.nodes)

/-- What the grammar makes of a text is what it makes of the words of the text. -/
theorem program_follows (lexes : Lexes [] text tokens) {result : Option (Match Rule)}
    (yields : flow.Yields (.sequence .empty programBody) .spaced (.after [] text) result) :
    Follow text tokens result := by
  have agrees := agrees_at_start (by decide) (by decide) (fun _ _ => rfl) lexes yields
  cases result with
  | none => exact agrees
  | some found =>
      obtain ⟨used, later, _, _, rfl, stretches, -, -, -, derives⟩ := agrees
      obtain ⟨ends, writes⟩ := writes_of_program derives
      obtain rfl : later = [] := List.map_eq_nil_iff.mp ends
      rw [List.append_nil] at writes ⊢
      exact ⟨stretches, writes⟩

/-- The tree of a program has the statements that the words write. -/
theorem program_tree (lexes : Lexes [] text tokens) {found : Match Rule}
    (yields : flow.Yields (.rule .program) .spaced (.after [] text) (some found)) :
    ∃ stop children, found.nodes = [.node .program 0 stop children] ∧
      found.tokens = tokens.map Token.stretch ∧
      Writes (words tokens) (sketchAll text children) := by
  cases yields with
  | @rule _ _ _ body yields =>
      obtain ⟨stretches, writes⟩ := program_follows lexes yields
      exact ⟨body.cursor.offset, body.nodes, rfl, stretches, writes⟩

end Grammar

/-! ## From words to scripts -/

section

variable {source : Text} {tokens : List Token}

theorem parseTree_writes (lexes : Lexes [] source tokens) {tree : Ast.Tree}
    (parsed : parseTree .program source = .ok tree) :
    tree.Shaped ∧ Writes (words tokens) (sketchAll source tree.children) := by
  obtain ⟨cursor, stretches, yields⟩ := parseTree_yields parsed
  obtain ⟨stop, children, same, -, writes⟩ := program_tree lexes yields
  have shaped := (yields.shaped (.inl (by decide)) _ rfl).nodes tree List.mem_cons_self
  cases same
  exact ⟨shaped, writes⟩

theorem Grammar.Writes.parseTree (lexes : Lexes [] source tokens) {sketches : List Sketch}
    (writes : Writes (words tokens) sketches) :
    ∃ tree, parseTree .program source = .ok tree ∧ sketchAll source tree.children = sketches := by
  obtain ⟨ends, shows⟩ := flow_parse_shows .program source
  unfold FlowScript.parseTree
  cases parsed : flow.parse .program source with
  | exhausted => exact absurd parsed ends
  | failed furthest =>
      rw [parsed] at shows
      cases shows with
      | ruleFails body => cases writes.program.unique (program_follows lexes body)
  | matched nodes cursor furthest =>
      rw [parsed] at shows
      obtain ⟨stretches, yields⟩ := shows
      obtain ⟨stop, children, same, -, others⟩ := program_tree lexes yields
      cases same
      cases Derives.unique writes others
      exact ⟨_, rfl, rfl⟩

end

/-- Trees with these sketches are read as these statements, apart from spans. -/
def Depicts (sketches : List Sketch) (statements : List Statement) : Prop :=
  ∀ (source : Text) (trees : List Ast.Tree), sketchAll source trees = sketches →
    ∃ read, Ast.readStatements source trees = .ok read ∧ Statement.allUnlocated read = statements

theorem Ast.readStatements_append (source : Text) (trees others : List Ast.Tree) :
    readStatements source (trees ++ others) =
      (do
        let left ← readStatements source trees
        let right ← readStatements source others
        pure (left ++ right)) := by
  induction trees with
  | nil => simp [readStatements]
  | cons tree trees ih => simp [readStatements, ih]

/-- Statements that follow each other are read one after the other. -/
theorem Depicts.append {left right : List Sketch} {leftRead rightRead : List Statement}
    (leftDepicts : Depicts left leftRead) (rightDepicts : Depicts right rightRead) :
    Depicts (left ++ right) (leftRead ++ rightRead) := by
  intro source trees same
  rw [sketchAll_eq_map, List.map_eq_append_iff] at same
  obtain ⟨first, second, rfl, firstSame, secondSame⟩ := same
  rw [← sketchAll_eq_map] at firstSame secondSame
  obtain ⟨statements, read, rfl⟩ := leftDepicts source first firstSame
  obtain ⟨others, othersRead, rfl⟩ := rightDepicts source second secondSame
  refine ⟨statements ++ others, ?_, ?_⟩
  · rw [Ast.readStatements_append, read, othersRead]
    rfl
  · simp only [Statement.allUnlocated_eq, List.map_append]

/-- What is read from trees that fit the grammar is read from all trees with their sketches. -/
theorem depicts_of_read {source : Text} {trees : List Ast.Tree} {statements : List Statement}
    (fits : ∀ tree ∈ trees, tree.All Ast.Fits)
    (read : Ast.readStatements source trees = .ok statements) :
    Depicts (sketchAll source trees) (Statement.allUnlocated statements) := by
  intro target twins same
  have legible : ∀ tree ∈ trees, tree.All (Ast.Legible source target) :=
    fun tree member => Ast.legible_of_fits (fits tree member)
  obtain ⟨others, othersRead, alike⟩ :=
    Ast.readStatements_alike legible same.symm statements read
  exact ⟨others, othersRead, alike.symm⟩

section

variable {source : Text} {tokens : List Token} (lexes : Lexes [] source tokens)

include lexes

/-- The words of a script write sketches that depict it. -/
theorem parseScript_writes {script : Script} (parsed : parseScript source = .ok script) :
    ∃ sketches, Writes (words tokens) sketches ∧ Depicts sketches script.unlocated := by
  obtain ⟨tree, found, read⟩ := parseScript_eq_ok.mp parsed
  obtain ⟨shaped, writes⟩ := parseTree_writes lexes found
  refine ⟨_, writes, ?_⟩
  unfold Ast.readScript at read
  cases statementsRead : Ast.readStatements source tree.children with
  | error => simp [statementsRead] at read
  | ok statements =>
      rw [statementsRead] at read
      cases read
      have fits := Ast.fits_of_shaped shaped
      have depicts := depicts_of_read (fun _ member => fits.child member) statementsRead
      rwa [Statement.allUnlocated_eq] at depicts

/-- Words that write sketches are a script if the sketches depict one. -/
theorem Grammar.Writes.parseScript {sketches : List Sketch} {statements : List Statement}
    (writes : Writes (words tokens) sketches) (depicts : Depicts sketches statements) :
    ∃ script, parseScript source = .ok script ∧ script.unlocated = statements := by
  obtain ⟨tree, found, same⟩ := writes.parseTree lexes
  obtain ⟨read, statementsRead, rfl⟩ := depicts source tree.children same
  refine ⟨⟨read, Ast.spanOf source tree⟩, parseScript_eq_ok.mpr ⟨tree, found, ?_⟩, ?_⟩
  · simp [Ast.readScript, statementsRead]
  · rw [Statement.allUnlocated_eq]
    rfl

end

end FlowScript
