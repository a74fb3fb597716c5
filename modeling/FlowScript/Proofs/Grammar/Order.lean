import FlowScript.Proofs.Grammar.Furthest
import FlowScript.Proofs.Grammar.Scan

/-!
# The order of the nodes of a parse tree

The nodes that a match leaves stand one behind the other, between the places where the
match begins and ends. Every node of a tree is left by a match of its rule, so the same
holds for the nodes inside of a node, and the text of a node is one that its rule matches.
-/

set_option autoImplicit false

namespace FlowScript.Grammar

variable {ρ : Type} {source : Text}

/-! ## Stretches in order -/

/-- The stretches stand one behind the other between the two offsets. -/
def InOrder (start : Nat) : List Stretch → Nat → Prop
  | [], stop => start ≤ stop
  | stretch :: rest, stop =>
      start ≤ stretch.start ∧ stretch.start ≤ stretch.stop ∧ InOrder stretch.stop rest stop

namespace InOrder

variable {start middle stop : Nat} {stretches others : List Stretch}

theorem le (ordered : InOrder start stretches stop) : start ≤ stop := by
  induction stretches generalizing start with
  | nil => exact ordered
  | cons stretch rest ih =>
      obtain ⟨before, inside, behind⟩ := ordered
      exact Nat.le_trans before (Nat.le_trans inside (ih behind))

theorem mono {lower upper : Nat} (ordered : InOrder start stretches stop) (before : lower ≤ start)
    (behind : stop ≤ upper) : InOrder lower stretches upper := by
  induction stretches generalizing lower start with
  | nil => exact Nat.le_trans before (Nat.le_trans ordered behind)
  | cons stretch rest ih =>
      exact ⟨Nat.le_trans before ordered.1, ordered.2.1, ih ordered.2.2 (Nat.le_refl _)⟩

theorem append (first : InOrder start stretches middle) (second : InOrder middle others stop) :
    InOrder start (stretches ++ others) stop := by
  induction stretches generalizing start with
  | nil => exact second.mono first (Nat.le_refl _)
  | cons stretch rest ih => exact ⟨first.1, first.2.1, ih first.2.2⟩

theorem bounds (ordered : InOrder start stretches stop) {stretch : Stretch}
    (member : stretch ∈ stretches) : start ≤ stretch.start ∧ stretch.stop ≤ stop := by
  induction stretches generalizing start with
  | nil => cases member
  | cons first rest ih =>
      obtain ⟨before, inside, behind⟩ := ordered
      rcases List.mem_cons.mp member with rfl | member
      · exact ⟨before, behind.le⟩
      · have later := ih behind member
        exact ⟨Nat.le_trans before (Nat.le_trans inside later.1), later.2⟩

theorem pairwise (ordered : InOrder start stretches stop) :
    stretches.Pairwise fun before behind => before.stop ≤ behind.start := by
  induction stretches generalizing start with
  | nil => exact .nil
  | cons first rest ih =>
      exact .cons (fun _ member => (ordered.2.2.bounds member).1) (ih ordered.2.2)

end InOrder

/-! ## Nodes in order -/

def Node.stretch (node : Node ρ) : Stretch := ⟨node.start, node.stop⟩

theorem Match.ordered_close {cursor : Cursor} {body : Match ρ}
    (ordered : InOrder cursor.offset (body.nodes.map Node.stretch) body.cursor.offset) (name : ρ)
    (definition : RuleDefinition ρ) (mode : Mode) :
    InOrder cursor.offset ((body.close name definition mode cursor).nodes.map Node.stretch)
      body.cursor.offset := by
  simp only [Match.close]
  split
  · exact ⟨Nat.le_refl _, ordered.le, Nat.le_refl _⟩
  · exact ordered

/-- The nodes of a match stand one behind the other, from its beginning to its end. -/
theorem Yields.ordered {grammar : Grammar ρ} {expression : Expression ρ} {mode : Mode}
    {cursor : Cursor} {result : Option (Match ρ)}
    (yields : grammar.Yields expression mode cursor result)
    (start : cursor.Advances source cursor) :
    ∀ found, result = some found →
      InOrder cursor.offset (found.nodes.map Node.stretch) found.cursor.offset := by
  induction yields with
  | empty | endOfInput | optionalSkips | manyEnds | manyMoreEnds | absent =>
      rintro found ⟨⟩
      exact Nat.le_refl _
  | text taken =>
      rintro found ⟨⟩
      exact (start.take? taken).offset_le
  | oneOf taken =>
      rintro found ⟨⟩
      exact (start.takeOne? taken).offset_le
  | @rule name mode cursor body _ ih =>
      rintro found ⟨⟩
      exact Match.ordered_close (ih start body rfl) name _ mode
  | sequence left gap _ first _ second =>
      rintro found ⟨⟩
      have between := (left.placed start _ rfl).advances
      have onward := (gap.placed between.refl _ rfl).advances
      have nodes := (first start _ rfl).append
        ((second onward.refl _ rfl).mono onward.offset_le (Nat.le_refl _))
      rwa [← List.map_append] at nodes
  | choice _ ih | optional _ ih => exact ih start
  | choiceElse _ _ _ ih => exact ih start
  | many body _ first rest =>
      rintro found ⟨⟩
      have onward := (body.placed start _ rfl).advances
      have nodes := (first start _ rfl).append (rest onward.refl _ rfl)
      rwa [← List.map_append] at nodes
  | manyMore gap body _ _ first rest =>
      rintro found ⟨⟩
      have between := (gap.placed start _ rfl).advances
      have onward := (body.placed between.refl _ rfl).advances
      have nodes := ((first between.refl _ rfl).mono between.offset_le (Nat.le_refl _)).append
        (rest onward.refl _ rfl)
      rwa [← List.map_append] at nodes
  | textFails | oneOfFails | endOfInputFails | ruleFails | sequenceFails | sequenceBreaks
  | absentFails =>
      intro found same
      cases same

/-! ## Where a node stems from -/

/-- A match of its rule, somewhere in the text, has left the node. -/
def Node.Stems (grammar : Grammar ρ) (source : Text) (node : Node ρ) : Prop :=
  ∃ mode cursor found, cursor.Advances source cursor ∧
    grammar.Yields (grammar.rules node.rule).body ((grammar.rules node.rule).mode.getD mode)
      cursor (some found) ∧
    node = .node node.rule cursor.offset found.cursor.offset found.nodes

theorem Yields.stems {grammar : Grammar ρ} {expression : Expression ρ} {mode : Mode}
    {cursor : Cursor} {result : Option (Match ρ)}
    (yields : grammar.Yields expression mode cursor result)
    (start : cursor.Advances source cursor) :
    ∀ found, result = some found → ∀ node ∈ found.nodes, node.All (Node.Stems grammar source) := by
  induction yields with
  | empty | endOfInput | optionalSkips | manyEnds | manyMoreEnds | absent | text | oneOf =>
      rintro found ⟨⟩ node member
      cases member
  | @rule name mode cursor body yields ih =>
      rintro found ⟨⟩ node member
      simp only [Match.close] at member
      split at member
      · rw [List.mem_singleton] at member
        subst member
        exact .node ⟨mode, cursor, body, start, yields, rfl⟩ (ih start body rfl)
      · exact ih start body rfl node member
  | sequence left gap _ first _ second =>
      rintro found ⟨⟩ node member
      have between := (left.placed start _ rfl).advances
      have onward := (gap.placed between.refl _ rfl).advances
      rcases List.mem_append.mp member with member | member
      · exact first start _ rfl node member
      · exact second onward.refl _ rfl node member
  | choice _ ih | optional _ ih => exact ih start
  | choiceElse _ _ _ ih => exact ih start
  | many body _ first rest =>
      rintro found ⟨⟩ node member
      have onward := (body.placed start _ rfl).advances
      rcases List.mem_append.mp member with member | member
      · exact first start _ rfl node member
      · exact rest onward.refl _ rfl node member
  | manyMore gap body _ _ first rest =>
      rintro found ⟨⟩ node member
      have between := (gap.placed start _ rfl).advances
      have onward := (body.placed between.refl _ rfl).advances
      rcases List.mem_append.mp member with member | member
      · exact first between.refl _ rfl node member
      · exact rest onward.refl _ rfl node member
  | textFails | oneOfFails | endOfInputFails | ruleFails | sequenceFails | sequenceBreaks
  | absentFails =>
      intro found same
      cases same

theorem Node.All.and {holds more : Node ρ → Prop} {tree : Node ρ} (all : tree.All holds)
    (others : tree.All more) : tree.All fun node => holds node ∧ more node := by
  induction all with
  | node here _ ih =>
      cases others with
      | node also inside => exact .node ⟨here, also⟩ fun child member => ih child member (inside child member)

/-- The nodes inside of a node stand one behind the other between its ends. -/
theorem Node.Stems.ordered {grammar : Grammar ρ} {node : Node ρ}
    (stems : node.Stems grammar source) :
    InOrder node.start (node.children.map Node.stretch) node.stop := by
  obtain ⟨mode, cursor, found, start, yields, same⟩ := stems
  rw [same]
  exact yields.ordered start _ rfl

/-! ## All nodes of a tree -/

mutual

/-- The tree and all trees in it, each one before those inside of it. -/
def Node.nodes (tree : Node ρ) : List (Node ρ) :=
  match tree with
  | .node rule start stop children => .node rule start stop children :: Node.allNodes children
termination_by structural tree

def Node.allNodes (trees : List (Node ρ)) : List (Node ρ) :=
  match trees with
  | [] => []
  | tree :: rest => tree.nodes ++ Node.allNodes rest
termination_by structural trees

end

/-- A property of all nodes in the trees. -/
theorem Node.forall_mem_allNodes {holds : Node ρ → Prop} {trees : List (Node ρ)}
    (all : ∀ tree ∈ trees, ∀ node ∈ tree.nodes, holds node) :
    ∀ node ∈ Node.allNodes trees, holds node := by
  induction trees with
  | nil => nofun
  | cons tree rest ih =>
      obtain ⟨here, others⟩ := List.forall_mem_cons.mp all
      exact List.forall_mem_append.mpr ⟨here, ih others⟩

theorem Node.All.forall_mem_nodes {holds : Node ρ → Prop} {tree : Node ρ} (all : tree.All holds) :
    ∀ node ∈ tree.nodes, node.All holds := by
  induction all with
  | node here inside ih =>
      exact List.forall_mem_cons.mpr ⟨.node here inside, Node.forall_mem_allNodes ih⟩

/-! ## The text of a node -/

/-- The characters stand between the ends of the node. -/
def Node.Covers (source : Text) (node : Node ρ) (chars : Text) : Prop :=
  source.slice? node.start node.stop = some chars

section

variable {node : Node Rule} {name : Rule}

/-- The rule of a token does not refuse the text at the node, and the node covers whatever the
rule reads there. -/
theorem Node.Stems.token (stems : node.Stems flow source) (same : node.rule = name)
    (sealed : (flow.rules name).mode = some .sealed) :
    ∃ text, ¬Refuses (flow.rules name).body text ∧ ∀ chars rest, text = chars ++ rest →
      Reads (flow.rules name).body chars rest → node.Covers source chars := by
  obtain ⟨mode, cursor, found, start, yields, whole⟩ := stems
  obtain ⟨before, inside, after, split, rfl, -⟩ := start.placed
  rw [same, sealed] at yields
  refine ⟨inside ++ after, fun refuses => ?_, fun chars rest read reads => ?_⟩
  · cases yields.unique (refuses before)
  · rw [read] at yields split
    cases Option.some.inj (yields.unique (reads before))
    rw [Node.Covers, whole, split]
    exact Text.slice?_append before chars rest

theorem wordEnd_total (rest : Text) : Reads Rule.wordEnd [] rest ∨ Refuses Rule.wordEnd rest := by
  cases rest with
  | nil => exact .inl (reads_wordEnd (Text.stops_nil _))
  | cons char rest =>
      cases continues : isWordChar char with
      | false => exact .inl (reads_wordEnd (Text.stops_cons.mpr continues))
      | true => exact .inr (refuses_wordEnd continues)

theorem Node.Stems.unit (stems : node.Stems flow source) (same : node.rule = .durationUnit) :
    ∃ unit ∈ unitWords, node.Covers source unit.toList := by
  obtain ⟨text, accepted, covers⟩ := stems.token same rfl
  rcases choiceOf_words unitWords text with ⟨unit, member, beyond, rfl, reads⟩ | ⟨-, refuses⟩
  · rcases wordEnd_total beyond with ends | goesOn
    · exact ⟨unit, member, covers _ beyond rfl (.sequenceNil reads ends)⟩
    · exact absurd (.sequenceBreaks reads goesOn) accepted
  · exact absurd (.sequence refuses) accepted

/-- Counts and integers are made of digits. -/
theorem Node.Stems.digits (stems : node.Stems flow source)
    (same : node.rule = .durationCount ∨ node.rule = .integer) :
    ∃ digits, digits ≠ [] ∧ (∀ char ∈ digits, char.isDigit) ∧ node.Covers source digits := by
  have front : ∀ text, Refuses (.oneOrMore (.oneOf Char.isDigit)) text ∨ ∃ digits rest,
      text = digits ++ rest ∧ digits ≠ [] ∧ (∀ char ∈ digits, char.isDigit) ∧
        Reads (.oneOrMore (.oneOf Char.isDigit)) digits rest := by
    intro text
    obtain ⟨digits, rest, rfl, inside, stops⟩ := split_while Char.isDigit text
    by_cases nonempty : digits = []
    · subst nonempty
      exact .inl (refuses_digits stops)
    · exact .inr ⟨digits, rest, rfl, nonempty, inside, reads_digits nonempty inside stops⟩
  rcases same with same | same
  · obtain ⟨text, accepted, covers⟩ := stems.token same rfl
    rcases front text with refuses | ⟨digits, rest, rfl, nonempty, inside, reads⟩
    · exact absurd refuses accepted
    · exact ⟨digits, nonempty, inside, covers digits rest rfl reads⟩
  · obtain ⟨text, accepted, covers⟩ := stems.token same rfl
    rcases front text with refuses | ⟨digits, rest, rfl, nonempty, inside, reads⟩
    · exact absurd (.sequence refuses) accepted
    · rcases wordEnd_total rest with ends | goesOn
      · exact ⟨digits, nonempty, inside, covers digits rest rfl (.sequenceNil reads ends)⟩
      · exact absurd (.sequenceBreaks reads goesOn) accepted

end

end FlowScript.Grammar
