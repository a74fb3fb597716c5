import FlowScript.Proofs.Grammar.Children
import FlowScript.Proofs.Syntax.Layout
import FlowScript.Proofs.Syntax.Likeness

/-!
# What reading a parse tree comes to

A parse tree of the grammar is read unless a number in it does not fit in its word. The
first such number in the source is what is reported. Whatever is read has a layout that
is faithful to the source. Here this is stated, and shown for names and literals.
-/

set_option autoImplicit false

namespace FlowScript

open FlowScript.Grammar (Node Rule InOrder flow)

namespace Ast

variable {source : Text}

/-! ## Numbers that do not fit -/

/-- What is wrong with a literal whose number does not fit in its word. -/
def rangeFault? (source : Text) (tree : Tree) : Option ReadFault :=
  match tree.rule, tree.children with
  | .literal, [.node .integer start stop _] =>
      let digits := source.slice start stop
      if maxSigned < digitsValue digits.toList then some (.integerTooLarge digits) else none
  | .literal, [.node .duration _ _ [count, _]] =>
      let digits := textOf source count
      if maxWord < digitsValue digits.toList then some (.durationTooLarge digits) else none
  | _, _ => none

def rangeError? (source : Text) (tree : Tree) : Option ReadError :=
  (rangeFault? source tree).map (⟨·, spanOf source tree⟩)

/-- The numbers that do not fit, in the order of the source. -/
def rangeErrors (source : Text) (trees : List Tree) : List ReadError :=
  (Node.allNodes trees).filterMap (rangeError? source)

theorem rangeError?_eq_none {tree : Tree} (other : tree.rule ≠ .literal) :
    rangeError? source tree = none := by
  unfold rangeError? rangeFault?
  split
  · next same _ => exact absurd same other
  · next same _ => exact absurd same other
  · rfl

section

variable {tree : Tree} {trees rest : List Tree} {rule : Rule} {start stop : Nat}

theorem rangeErrors_cons :
    rangeErrors source (tree :: rest) = rangeErrors source [tree] ++ rangeErrors source rest := by
  simp [rangeErrors, Node.allNodes, List.filterMap_append]

theorem rangeErrors_literal :
    rangeErrors source [.node rule start stop trees] =
      (rangeError? source (.node rule start stop trees)).toList ++ rangeErrors source trees := by
  unfold rangeErrors
  rw [Node.allNodes, Node.nodes, Node.allNodes, List.append_nil, List.filterMap_cons]
  cases rangeError? source (.node rule start stop trees) <;> rfl

theorem rangeErrors_node (other : rule ≠ .literal) :
    rangeErrors source [.node rule start stop trees] = rangeErrors source trees := by
  have none : rangeError? source (.node rule start stop trees) = none := rangeError?_eq_none other
  rw [rangeErrors_literal, none]
  rfl

end

/-! ## What is known of a parse tree -/

/-- A node that the grammar leaves in the text. -/
structure Sited (source : Text) (tree : Tree) : Prop where
  fits : Fits tree
  stems : tree.Stems flow source
  encloses : source.Encloses tree.start tree.stop

/-- In a plain node all nodes are plain. -/
theorem nodes_plain {tree : Tree} (sited : tree.All (Sited source)) (plain : tree.rule.isPlain) :
    ∀ node ∈ tree.nodes, node.rule.isPlain := by
  induction sited with
  | @node rule start stop children here _ ih =>
      have inside := Rule.Leaves.plain here.fits plain
      refine List.forall_mem_cons.mpr ⟨plain, Node.forall_mem_allNodes fun child member => ?_⟩
      exact ih child member (inside child.rule (List.mem_map_of_mem member))

theorem ne_literal_of_isPlain {rule : Rule} (plain : rule.isPlain) : rule ≠ .literal := by
  rintro rfl
  cases plain

theorem rangeErrors_plain {tree : Tree} (sited : tree.All (Sited source))
    (plain : tree.rule.isPlain) : rangeErrors source [tree] = [] := by
  unfold rangeErrors
  rw [Node.allNodes, Node.allNodes, List.append_nil]
  apply List.filterMap_eq_nil_iff.mpr
  intro node member
  exact rangeError?_eq_none (ne_literal_of_isPlain (nodes_plain sited plain node member))

/-- A plain node in front makes no difference. -/
theorem rangeErrors_skip {tree : Tree} {rest : List Tree} (sited : tree.All (Sited source))
    (plain : tree.rule.isPlain) : rangeErrors source (tree :: rest) = rangeErrors source rest := by
  rw [rangeErrors_cons, rangeErrors_plain sited plain, List.nil_append]

/-! ## What reading comes to -/

/-- The first error is reported. Without any, something with the property is read. -/
def Settles {α : Type} (errors : List ReadError) (post : α → Prop)
    (result : Except ReadError α) : Prop :=
  match errors with
  | [] => ∃ value, result = .ok value ∧ post value
  | error :: _ => result = .error error

namespace Settles

variable {α β : Type} {errors more : List ReadError} {between : α → Prop} {post : β → Prop}
  {first : Except ReadError α}

theorem pure {value : β} (holds : post value) : Settles [] post (pure value) :=
  ⟨value, rfl, holds⟩

theorem bind {next : α → Except ReadError β} (firstSettles : Settles errors between first)
    (nextSettles : ∀ value, between value → Settles more post (next value)) :
    Settles (errors ++ more) post (first >>= next) := by
  cases errors with
  | nil =>
      obtain ⟨value, rfl, holds⟩ := firstSettles
      exact nextSettles value holds
  | cons error rest =>
      cases firstSettles
      rfl

theorem map {change : α → β} (firstSettles : Settles errors between first)
    (changes : ∀ value, between value → post (change value)) :
    Settles errors post (first >>= fun value => Pure.pure (change value)) := by
  have settles := firstSettles.bind fun value holds => Settles.pure (changes value holds)
  rwa [List.append_nil] at settles

theorem imp {stronger : β → Prop} {result : Except ReadError β}
    (settles : Settles errors stronger result) (weaken : ∀ value, stronger value → post value) :
    Settles errors post result := by
  cases errors with
  | nil =>
      obtain ⟨value, same, holds⟩ := settles
      exact ⟨value, same, weaken value holds⟩
  | cons => exact settles

end Settles

/-- What comes of reading the tree, if it is a tree of the kind that is read. -/
structure Settled (source : Text) (tree : Tree) : Prop where
  expr : tree.rule.isExpression → Settles (rangeErrors source [tree])
    (fun expr => Layout.Row source tree.start tree.stop [expr.layout]) (readExpr source tree)
  statement : tree.rule.isStatement → Settles (rangeErrors source [tree])
    (fun statement => Layout.Row source tree.start tree.stop [statement.layout])
    (readStatement source tree)
  block : tree.rule = .block → Settles (rangeErrors source [tree])
    (fun block => Layout.Row source tree.start tree.stop [block.layout]) (readBlock source tree)
  conditional : tree.rule = .conditional → Settles (rangeErrors source [tree])
    (fun conditional => Layout.Row source tree.start tree.stop [conditional.layout])
    (readConditional source tree)

structure Known (source : Text) (tree : Tree) : Prop where
  sited : Sited source tree
  settled : Settled source tree

theorem all_sited {tree : Tree} (known : tree.All (Known source)) : tree.All (Sited source) :=
  known.imp fun _ here => here.sited

/-! ## Children -/

section

variable {trees : List Tree} {first second third : Rule}

theorem children_one (rules : trees.map Node.rule = [first]) :
    ∃ child, trees = [child] ∧ child.rule = first :=
  List.map_eq_singleton_iff.mp rules

theorem children_two (rules : trees.map Node.rule = [first, second]) :
    ∃ child other, trees = [child, other] ∧ child.rule = first ∧ other.rule = second := by
  obtain ⟨child, rest, rfl, childRule, restRules⟩ := List.map_eq_cons_iff.mp rules
  obtain ⟨other, rfl, otherRule⟩ := children_one restRules
  exact ⟨child, other, rfl, childRule, otherRule⟩

theorem children_three (rules : trees.map Node.rule = [first, second, third]) :
    ∃ child other last, trees = [child, other, last] ∧ child.rule = first ∧
      other.rule = second ∧ last.rule = third := by
  obtain ⟨child, rest, rfl, childRule, restRules⟩ := List.map_eq_cons_iff.mp rules
  obtain ⟨other, last, rfl, otherRule, lastRule⟩ := children_two restRules
  exact ⟨child, other, last, rfl, childRule, otherRule, lastRule⟩

end

/-! ## Names -/

theorem slice?_of_encloses {start stop : Nat} (encloses : source.Encloses start stop) :
    source.slice? start stop = some (source.slice start stop).toList := by
  obtain ⟨before, inside, after, rfl, rfl, rfl⟩ := encloses
  rw [Text.slice, Text.slice?_append]
  simp

theorem readIdentifier_row {tree : Tree} (sited : Sited source tree) :
    Layout.Row source tree.start tree.stop [(readIdentifier source tree).layout] := by
  have inside : Layout.Row source tree.start tree.stop [] := .nil sited.encloses.start_le_stop
  apply inside.node sited.encloses
  · rintro text ⟨⟩
    exact slice?_of_encloses sited.encloses
  · exact ⟨nofun, nofun⟩

theorem readIdentifiers_row {trees : List Tree} {start stop : Nat}
    (sited : ∀ tree ∈ trees, Sited source tree)
    (ordered : InOrder start (trees.map Node.stretch) stop) :
    Layout.Row source start stop
      ((trees.map (readIdentifier source)).map Identifier.layout) := by
  induction trees generalizing start with
  | nil => exact .nil ordered
  | cons tree rest ih =>
      obtain ⟨here, others⟩ := List.forall_mem_cons.mp sited
      obtain ⟨before, inside, behind⟩ := ordered
      exact ((readIdentifier_row here).widen before (Nat.le_refl _)).cons (ih others behind)

theorem readPath_settles {tree : Tree} (sited : tree.All (Sited source))
    (isPath : tree.rule = .identifierPath) :
    Settles [] (fun path => Layout.Row source tree.start tree.stop [path.layout])
      (readPath source tree) := by
  have here := sited.root
  obtain ⟨rule, start, stop, children⟩ := tree
  obtain rfl : rule = .identifierPath := isPath
  obtain ⟨nonempty, -⟩ := Rule.Leaves.identifierPath here.fits
  cases children with
  | nil => exact absurd rfl nonempty
  | cons head tail =>
      apply Settles.pure
      have names := readIdentifiers_row (fun _ member => (sited.child member).root)
        here.stems.ordered
      exact names.node here.encloses nofun ⟨fun _ => List.cons_ne_nil _ _, nofun⟩

/-! ## Literals -/

theorem textOf_of_covers {tree : Tree} {chars : Text} (covers : tree.Covers source chars) :
    textOf source tree = String.ofList chars := by
  rw [textOf, Text.slice, show source.slice? tree.start tree.stop = some chars from covers]
  rfl

theorem unit_known {tree : Tree} (sited : Sited source tree) (isUnit : tree.rule = .durationUnit) :
    ∃ unit, TimeUnit.ofSuffix? (textOf source tree) = some unit := by
  obtain ⟨word, member, covers⟩ := sited.stems.unit isUnit
  have known : ∀ word ∈ Grammar.unitWords, (TimeUnit.ofSuffix? word).isSome := by decide
  rw [textOf_of_covers covers, String.ofList_toList]
  exact Option.isSome_iff_exists.mp (known word member)

theorem readInteger_eq (digits : String) :
    readInteger digits =
      if maxSigned < digitsValue digits.toList then .error (.integerTooLarge digits)
      else .ok (.integer (Int64.ofInt (digitsValue digits.toList))) := by
  unfold readInteger signedOfInt?
  by_cases large : maxSigned < digitsValue digits.toList
  · rw [if_pos large, if_neg (by omega)]
  · rw [if_neg large, if_pos (by omega)]

theorem readDuration_eq {count word : String} {unit : TimeUnit}
    (known : TimeUnit.ofSuffix? word = some unit) :
    readDuration count word =
      if maxWord < digitsValue count.toList then .error (.durationTooLarge count)
      else .ok (.duration ⟨UInt64.ofNat (digitsValue count.toList), unit⟩) := by
  unfold readDuration wordOfNat?
  rw [known]
  by_cases large : maxWord < digitsValue count.toList
  · rw [if_pos large, if_neg (by omega)]
  · rw [if_neg large, if_pos (by omega)]

/-- A literal is read, or its number does not fit. -/
theorem readLiteralValue_total (start stop : Nat) {child : Tree}
    (fits : Rule.literal.Leaves [child.rule]) (known : child.All (Sited source)) :
    (∃ value, readLiteralValue source child = .ok value ∧
        rangeFault? source (.node .literal start stop [child]) = none) ∨
      ∃ fault, readLiteralValue source child = .error fault ∧
        rangeFault? source (.node .literal start stop [child]) = some fault := by
  have here := known.root
  have ways : [child.rule] ∈ [[.stringTriple], [.stringSingle], [.boolean], [.duration], [.real],
      [.integer]] := fits.mem_ways (by decide) rfl
  obtain ⟨rule, opening, closing, parts⟩ := child
  simp only [Node.rule, List.mem_cons, List.cons.injEq, and_true, List.not_mem_nil, or_false]
    at ways
  rcases ways with rfl | rfl | rfl | rfl | rfl | rfl
  · have fits : Rule.stringTriple.Leaves (parts.map Node.rule) := here.fits
    have one : parts.map Node.rule ∈ [[.stringTripleContent]] := fits.mem_ways (by decide) rfl
    obtain ⟨content, rfl, -⟩ := children_one (List.mem_singleton.mp one)
    exact .inl ⟨_, rfl, rfl⟩
  · have fits : Rule.stringSingle.Leaves (parts.map Node.rule) := here.fits
    have one : parts.map Node.rule ∈ [[.stringSingleContent]] := fits.mem_ways (by decide) rfl
    obtain ⟨content, rfl, -⟩ := children_one (List.mem_singleton.mp one)
    exact .inl ⟨_, rfl, rfl⟩
  · exact .inl ⟨_, rfl, rfl⟩
  · have fits : Rule.duration.Leaves (parts.map Node.rule) := here.fits
    have two : parts.map Node.rule ∈ [[.durationCount, .durationUnit]] :=
      fits.mem_ways (by decide) rfl
    obtain ⟨count, unit, rfl, -, unitRule⟩ := children_two (List.mem_singleton.mp two)
    have unitSited : unit.All (Sited source) := known.child (by simp [Node.children])
    obtain ⟨found, same⟩ := unit_known unitSited.root unitRule
    have read : readLiteralValue source (.node .duration opening closing [count, unit]) =
        readDuration (textOf source count) (textOf source unit) := rfl
    rw [read, readDuration_eq same, rangeFault?]
    dsimp only [Node.rule, Node.children]
    split
    · exact .inr ⟨_, rfl, rfl⟩
    · exact .inl ⟨_, rfl, rfl⟩
  · exact .inl ⟨_, rfl, rfl⟩
  · have read : readLiteralValue source (.node .integer opening closing parts) =
        readInteger (source.slice opening closing) := rfl
    rw [read, readInteger_eq, rangeFault?]
    dsimp only [Node.rule, Node.children]
    split
    · exact .inr ⟨_, rfl, rfl⟩
    · exact .inl ⟨_, rfl, rfl⟩

theorem readLiteral_settles {start stop : Nat} {child : Tree}
    (here : Sited source (.node .literal start stop [child])) (known : child.All (Sited source)) :
    Settles (rangeErrors source [.node .literal start stop [child]])
      (fun expr => Layout.Row source start stop [expr.layout])
      (readLiteral source (source.span start stop) child) := by
  obtain ⟨rule, same, isPlain⟩ := Rule.Leaves.literal here.fits
  obtain rfl : child.rule = rule := List.singleton_inj.mp same
  rw [rangeErrors_literal, rangeErrors_plain known isPlain, List.append_nil, rangeError?, readLiteral]
  rcases readLiteralValue_total start stop here.fits known with
    ⟨value, read, fitting⟩ | ⟨fault, read, fitting⟩
  · rw [read, fitting]
    have inside : Layout.Row source start stop [] := .nil here.encloses.start_le_stop
    exact .pure (inside.other here.encloses)
  · rw [read, fitting]
    rfl

end Ast

end FlowScript
