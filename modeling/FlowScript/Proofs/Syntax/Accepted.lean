import FlowScript.Proofs.Syntax.Settling.Statements

/-!
# Reading what the grammar accepts

A text that the grammar accepts is read, unless a number in it does not fit in its word;
then the leftmost such number is reported. The tree that is read has spans that are
faithful to the text.
-/

set_option autoImplicit false

namespace FlowScript

open FlowScript.Grammar (Node Rule InOrder flow)

namespace Ast

variable {source : Text}

/-! ## The order of the literals -/

/-- The literals of a parse tree. -/
def literals (tree : Tree) : List Tree := tree.nodes.filter fun node => node.rule = .literal

theorem allLiterals_ordered {trees : List Tree} {start stop : Nat}
    (each : ∀ tree ∈ trees, InOrder tree.start ((literals tree).map Node.stretch) tree.stop)
    (ordered : InOrder start (trees.map Node.stretch) stop) :
    InOrder start
      (((Node.allNodes trees).filter fun node => node.rule = .literal).map Node.stretch) stop := by
  induction trees generalizing start with
  | nil => exact ordered
  | cons tree rest ih =>
      obtain ⟨here, others⟩ := List.forall_mem_cons.mp each
      obtain ⟨before, -, behind⟩ := ordered
      rw [Node.allNodes, List.filter_append, List.map_append]
      exact (here.mono before (Nat.le_refl _)).append (ih others behind)

/-- The literals stand one behind the other, since none is inside of another one. -/
theorem literals_ordered {tree : Tree} (sited : tree.All (Sited source)) :
    InOrder tree.start ((literals tree).map Node.stretch) tree.stop := by
  induction sited with
  | @node rule start stop children here inside ih =>
      have others := allLiterals_ordered ih here.stems.ordered
      by_cases isLiteral : rule = .literal
      · subst isLiteral
        obtain ⟨child, rules, plain⟩ := Rule.Leaves.literal here.fits
        obtain ⟨child, rfl, same⟩ := children_one rules
        have noneInside : (Node.allNodes [child]).filter (fun node => node.rule = .literal) = [] := by
          rw [Node.allNodes, Node.allNodes, List.append_nil]
          apply List.filter_eq_nil_iff.mpr
          intro node member
          have childPlain := nodes_plain (inside child List.mem_cons_self) (same ▸ plain)
          simpa using ne_literal_of_isPlain (childPlain node member)
        have only : literals (.node .literal start stop [child]) =
            [.node .literal start stop [child]] := by
          rw [literals, Node.nodes, List.filter_cons_of_pos (by simp [Node.rule]), noneInside]
        rw [only]
        exact ⟨Nat.le_refl _, here.encloses.start_le_stop, Nat.le_refl _⟩
      · rwa [literals, Node.nodes, List.filter_cons_of_neg (by simp [Node.rule, isLiteral])]

/-! ## Numbers that do not fit -/

/-- Reading fails where a number does not fit, and then at the leftmost one. Numbers are made
of digits, so nothing else can be wrong with them. -/
structure RejectsNumbers {α : Type} (source : Text) (tree : Tree) (result : Except ParseError α) :
    Prop where
  fails_iff : (∃ error, result = .error error) ↔
    ∃ literal ∈ literals tree, (rangeFault? source literal).isSome
  leftmost : ∀ error, result = .error error → ∃ literal ∈ literals tree, ∃ fault,
    rangeFault? source literal = some fault ∧
      error = .unreadable ⟨fault, spanOf source literal⟩ ∧
      ∀ other ∈ literals tree, (rangeFault? source other).isSome →
        other = literal ∨ literal.stop ≤ other.start
  digits : ∀ node ∈ tree.nodes, node.rule = .integer ∨ node.rule = .durationCount →
    ∃ digits, digits ≠ [] ∧ (∀ char ∈ digits, char.isDigit) ∧
      textOf source node = String.ofList digits

theorem rangeErrors_eq (tree : Tree) :
    rangeErrors source [tree] = (literals tree).filterMap (rangeError? source) := by
  have same : rangeErrors source [tree] = tree.nodes.filterMap (rangeError? source) := by
    rw [rangeErrors, Node.allNodes, Node.allNodes, List.append_nil]
  rw [same, literals]
  generalize tree.nodes = nodes
  induction nodes with
  | nil => rfl
  | cons node rest ih =>
      by_cases isLiteral : node.rule = .literal
      · rw [List.filter_cons_of_pos (by simpa using isLiteral), List.filterMap_cons,
          List.filterMap_cons, ih]
      · rw [List.filter_cons_of_neg (by simpa using isLiteral),
          List.filterMap_cons_none (rangeError?_eq_none isLiteral), ih]

theorem rejects_of_settles {α : Type} {tree : Tree} {post : α → Prop}
    {result : Except ReadError α} (sited : tree.All (Sited source))
    (settles : Settles (rangeErrors source [tree]) post result) :
    RejectsNumbers source tree (result.mapError .unreadable) := by
  have digits : ∀ node ∈ tree.nodes, node.rule = .integer ∨ node.rule = .durationCount →
      ∃ digits, digits ≠ [] ∧ (∀ char ∈ digits, char.isDigit) ∧
        textOf source node = String.ofList digits := by
    intro node member isNumber
    have stems := (sited.forall_mem_nodes node member).root.stems
    obtain ⟨digits, nonempty, inside, covers⟩ := stems.digits isNumber.symm
    exact ⟨digits, nonempty, inside, textOf_of_covers covers⟩
  rw [rangeErrors_eq] at settles
  cases found : (literals tree).filterMap (rangeError? source) with
  | nil =>
      rw [found] at settles
      obtain ⟨value, rfl, -⟩ := settles
      refine ⟨⟨?_, ?_⟩, ?_, digits⟩
      · rintro ⟨error, ⟨⟩⟩
      · rintro ⟨literal, member, large⟩
        have none := List.filterMap_eq_nil_iff.mp found literal member
        rw [rangeError?, Option.map_eq_none_iff] at none
        rw [none] at large
        cases large
      · rintro error ⟨⟩
  | cons error rest =>
      rw [found] at settles
      cases settles
      obtain ⟨before, literal, behind, split, fitting, failing, -⟩ :=
        List.filterMap_eq_cons_iff.mp found
      obtain ⟨fault, large, rfl⟩ := Option.map_eq_some_iff.mp failing
      have member : literal ∈ literals tree := by
        rw [split]
        exact List.mem_append_right _ List.mem_cons_self
      have order := (literals_ordered sited).pairwise
      rw [split, List.map_append, List.map_cons, List.pairwise_append, List.pairwise_cons] at order
      refine ⟨⟨fun _ => ⟨literal, member, by rw [large]; rfl⟩, fun _ => ⟨_, rfl⟩⟩, ?_, digits⟩
      rintro error ⟨⟩
      refine ⟨literal, member, fault, large, rfl, fun other otherMember otherLarge => ?_⟩
      rw [split] at otherMember
      rcases List.mem_append.mp otherMember with earlier | later
      · have none := fitting other earlier
        rw [rangeError?, Option.map_eq_none_iff] at none
        rw [none] at otherLarge
        cases otherLarge
      · rcases List.mem_cons.mp later with same | later
        · exact .inl same
        · exact .inr (order.2.1.1 other.stretch (List.mem_map_of_mem later))

end Ast

/-! ## Scripts and expressions -/

/-- The layout is faithful and complete all through. -/
def Layout.Sound (source : Text) (layout : Layout) : Prop :=
  layout.All fun other => other.Faithful source ∧ other.Complete

section

variable {source : Text} {tree : Ast.Tree}

/-- A script is what is read from the tree of its text. -/
theorem parseScript_settles (found : parseTree .program source = .ok tree) :
    ∃ read, parseScript source = read.mapError .unreadable ∧
      Ast.Settles (Ast.rangeErrors source [tree]) (fun script => script.layout.Sound source)
        read := by
  obtain ⟨sited, isRoot⟩ := parseTree_sited rfl found
  refine ⟨Ast.readScript source tree, ?_, ?_⟩
  · unfold parseScript
    rw [found]
    rfl
  · apply (Ast.readScript_settles sited isRoot).imp
    exact fun script row => row.sound _ List.mem_cons_self

/-- An expression is what is read from the only child of the tree of its text. -/
theorem parseExpression_settles (found : parseTree .expressionOnly source = .ok tree) :
    ∃ read, parseExpression source = read.mapError .unreadable ∧
      Ast.Settles (Ast.rangeErrors source [tree]) (fun expr => expr.layout.Sound source) read := by
  obtain ⟨sited, isRoot⟩ := parseTree_sited rfl found
  have known := Ast.known_of_sited sited
  have fits := sited.root.fits
  unfold parseExpression
  rw [found]
  obtain ⟨rule, start, stop, children⟩ := tree
  obtain rfl : rule = .expressionOnly := isRoot
  have ways : children.map Node.rule ∈ [[.expression]] := Rule.Leaves.mem_ways fits nofun rfl
  obtain ⟨child, rfl, childRule⟩ := Ast.children_one (List.mem_singleton.mp ways)
  refine ⟨Ast.readExpr source child, rfl, ?_⟩
  rw [Ast.rangeErrors_node (by decide)]
  have childKnown : child.All _ := known.child List.mem_cons_self
  have childSettled := childKnown.root.settled
  apply (childSettled.expr (childRule ▸ rfl)).imp
  exact fun expr row => row.sound _ List.mem_cons_self

theorem Ast.Settles.of_eq_ok {α : Type} {errors : List ReadError} {post : α → Prop}
    {read : Except ReadError α} {value : α} (settles : Ast.Settles errors post read)
    (same : read.mapError ParseError.unreadable = .ok value) : post value := by
  cases read with
  | error error => cases same
  | ok other =>
      cases same
      cases errors with
      | nil =>
          obtain ⟨_, ⟨⟩, holds⟩ := settles
          exact holds
      | cons => cases settles

end

/-- A text that the grammar accepts is read, unless a number in it does not fit in its word.
Then the leftmost such number is reported, and nothing else ever is. What is read has no
path without segments and no chain without operations. -/
theorem accepted_unless_out_of_range (source : Text) :
    (∀ found, flow.Yields (.rule .program) .spaced ⟨source, 0⟩ (some found) →
      ∃ tree, found.nodes = [tree] ∧ Ast.RejectsNumbers source tree (parseScript source) ∧
        ∀ script, parseScript source = .ok script → script.layout.All Layout.Complete) ∧
    (∀ found, flow.Yields (.rule .expressionOnly) .spaced ⟨source, 0⟩ (some found) →
      ∃ tree, found.nodes = [tree] ∧ Ast.RejectsNumbers source tree (parseExpression source) ∧
        ∀ expr, parseExpression source = .ok expr → expr.layout.All Layout.Complete) := by
  constructor
  · intro found yields
    obtain ⟨tree, nodes, -, parsed⟩ := yields.parseTree rfl
    obtain ⟨read, same, settles⟩ := parseScript_settles parsed
    have rejects := Ast.rejects_of_settles (parseTree_sited rfl parsed).1 settles
    rw [same]
    refine ⟨tree, nodes, rejects, fun script parsed => ?_⟩
    exact (settles.of_eq_ok parsed).imp fun _ facts => facts.2
  · intro found yields
    obtain ⟨tree, nodes, -, parsed⟩ := yields.parseTree rfl
    obtain ⟨read, same, settles⟩ := parseExpression_settles parsed
    have rejects := Ast.rejects_of_settles (parseTree_sited rfl parsed).1 settles
    rw [same]
    refine ⟨tree, nodes, rejects, fun expr parsed => ?_⟩
    exact (settles.of_eq_ok parsed).imp fun _ facts => facts.2

/-- The count of this duration does not fit in its word. -/
def longCount : Text := "delay 18446744073709551616sec;".toList

theorem longCount_rejected :
    ∃ tree, parseTree .program longCount = .ok tree ∧
      Ast.RejectsNumbers longCount tree (parseScript longCount) ∧
      parseScript longCount = .error (.unreadable
        ⟨.durationTooLarge "18446744073709551616", ⟨6, 29, 0, 6, 0, 29⟩⟩) := by
  obtain ⟨tree, parsed⟩ := exists_value_of_isOk
    (show (parseTree .program longCount).isOk by decide +kernel)
  obtain ⟨cursor, tokens, yields⟩ := parseTree_yields parsed
  obtain ⟨root, isRoot, rejects, -⟩ := (accepted_unless_out_of_range longCount).1 _ yields
  cases isRoot
  exact ⟨tree, parsed, rejects, eq_error_of_failure? (by decide +kernel)⟩

/-- Every span of a script is a stretch of the text at its lines and columns. It is inside of
the span around it and behind the spans before it, and names are the texts at their spans. -/
theorem spans_faithful {source : Text} {script : Script}
    (parsed : parseScript source = .ok script) : script.layout.All (Layout.Faithful source) := by
  obtain ⟨tree, found, -⟩ := parseScript_eq_ok.mp parsed
  obtain ⟨read, same, settles⟩ := parseScript_settles found
  rw [same] at parsed
  exact (settles.of_eq_ok parsed).imp fun _ facts => facts.1

/-- Here bytes and columns differ, and the block goes on over a line end. -/
def umlautCondition : Text := "if 'ä' is a \x7b b(1 + 2 // c\n); \x7d".toList

/-- Behind the umlaut columns are one less than bytes, and the block ends on the second line. -/
theorem umlautCondition_faithful :
    ∃ script, parseScript umlautCondition = .ok script ∧
      ((script.layout.children.flatMap Layout.children).flatMap Layout.children).map Layout.span =
        [⟨3, 13, 0, 3, 0, 12⟩, ⟨13, 32, 0, 12, 1, 4⟩] ∧
      script.layout.All (Layout.Faithful umlautCondition) := by
  have spans : (parseScript umlautCondition).toOption.map (fun script =>
      ((script.layout.children.flatMap Layout.children).flatMap Layout.children).map Layout.span) =
      some [⟨3, 13, 0, 3, 0, 12⟩, ⟨13, 32, 0, 12, 1, 4⟩] := by decide +kernel
  obtain ⟨script, parsed⟩ := exists_script_of_isOk
    (show (parseScript umlautCondition).isOk by decide +kernel)
  rw [parsed] at spans
  exact ⟨script, parsed, Option.some.inj spans, spans_faithful parsed⟩

end FlowScript
