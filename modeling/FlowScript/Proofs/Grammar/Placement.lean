import FlowScript.Proofs.Grammar.Reading

/-!
# Where the nodes of a parse tree stand

Matching goes through a text character by character, so both ends of every node lie
between two characters, the first one not behind the second one.
-/

set_option autoImplicit false

namespace FlowScript

/-- Whole characters of the text stand between the two offsets. -/
def Text.Encloses (source : Text) (start stop : Nat) : Prop :=
  ∃ before inside after, source = before ++ (inside ++ after) ∧ start = before.byteSize ∧
    stop = (before ++ inside).byteSize

namespace Text.Encloses

variable {source : Text} {start middle stop : Nat}

theorem start_le_stop (encloses : source.Encloses start stop) : start ≤ stop := by
  obtain ⟨before, inside, after, -, rfl, rfl⟩ := encloses
  simp

theorem stop_le_size (encloses : source.Encloses start stop) : stop ≤ source.byteSize := by
  obtain ⟨before, inside, after, rfl, -, rfl⟩ := encloses
  simp only [byteSize_append]
  omega

/-- Two beginnings of a text enclose what the longer one has more. -/
theorem of_beginnings {left right leftRest rightRest : Text} (leftSplit : source = left ++ leftRest)
    (rightSplit : source = right ++ rightRest) (le : left.byteSize ≤ right.byteSize) :
    source.Encloses left.byteSize right.byteSize := by
  rcases List.append_eq_append_iff.mp (leftSplit.symm.trans rightSplit) with
    ⟨inside, rfl, rfl⟩ | ⟨beyond, rfl, rfl⟩
  · exact ⟨left, inside, rightRest, leftSplit, rfl, rfl⟩
  · have none : beyond = [] := by
      cases beyond with
      | nil => rfl
      | cons char beyond =>
          have positive := char.utf8Size_pos
          rw [byteSize_append, byteSize_cons] at le
          omega
    subst none
    exact ⟨right, [], leftRest, by simpa using rightSplit, by simp, by simp⟩

/-- What covers two enclosed stretches is enclosed. -/
theorem cover {otherStart otherStop : Nat} (encloses : source.Encloses start stop)
    (other : source.Encloses otherStart otherStop) :
    source.Encloses (min start otherStart) (max stop otherStop) := by
  have leftOrder := encloses.start_le_stop
  have rightOrder := other.start_le_stop
  obtain ⟨before, inside, after, leftSplit, rfl, rfl⟩ := encloses
  obtain ⟨otherBefore, otherInside, otherAfter, rightSplit, rfl, rfl⟩ := other
  have leftStop : source = (before ++ inside) ++ after := by rw [leftSplit, List.append_assoc]
  have rightStop : source = (otherBefore ++ otherInside) ++ otherAfter := by
    rw [rightSplit, List.append_assoc]
  rcases Nat.le_total before.byteSize otherBefore.byteSize with first | first <;>
    rcases Nat.le_total (before ++ inside).byteSize (otherBefore ++ otherInside).byteSize with
      last | last <;>
    simp only [Nat.min_eq_left, Nat.min_eq_right, Nat.max_eq_left, Nat.max_eq_right, first, last]
  · exact of_beginnings leftSplit rightStop (by omega)
  · exact of_beginnings leftSplit leftStop leftOrder
  · exact of_beginnings rightSplit rightStop rightOrder
  · exact of_beginnings rightSplit leftStop (by omega)

theorem splitAt?_start (encloses : source.Encloses start stop) :
    ∃ before after, source.splitAt? start = some (before, after) := by
  obtain ⟨before, inside, after, rfl, rfl, -⟩ := encloses
  exact ⟨before, inside ++ after, splitAt?_append _ _⟩

theorem splitAt?_stop (encloses : source.Encloses start stop) :
    ∃ before after, source.splitAt? stop = some (before, after) := by
  obtain ⟨before, inside, after, rfl, -, rfl⟩ := encloses
  refine ⟨before ++ inside, after, ?_⟩
  rw [← List.append_assoc]
  exact splitAt?_append _ _

end Text.Encloses

namespace Grammar

variable {ρ : Type} {source : Text}

/-- The property holds of the tree and of all trees in it. -/
inductive Node.All (holds : Node ρ → Prop) : Node ρ → Prop where
  | node {rule : ρ} {start stop : Nat} {children : List (Node ρ)} :
      holds (.node rule start stop children) → (∀ child ∈ children, All holds child) →
      All holds (.node rule start stop children)

namespace Node.All

variable {holds more : Node ρ → Prop} {tree : Node ρ}

theorem root (all : tree.All holds) : holds tree := by
  cases all with
  | node here _ => exact here

theorem child (all : tree.All holds) {child : Node ρ} (member : child ∈ tree.children) :
    child.All holds := by
  cases all with
  | node _ inside => exact inside child member

theorem imp (all : tree.All holds) (weaken : ∀ other : Node ρ, holds other → more other) :
    tree.All more := by
  induction all with
  | node here _ ih => exact .node (weaken _ here) ih

/-- What follows for a tree from the same about all trees in it follows for all. -/
theorem strengthen (all : tree.All holds)
    (step : ∀ tree : Node ρ, holds tree →
      (∀ child ∈ tree.children, child.All fun other => holds other ∧ more other) → more tree) :
    tree.All fun other => holds other ∧ more other := by
  induction all with
  | node here _ ih => exact .node ⟨here, step _ here ih⟩ ih

end Node.All

/-- The tree and all trees in it stand in the text. -/
def Node.Placed (source : Text) (tree : Node ρ) : Prop :=
  tree.All fun node => source.Encloses node.start node.stop

/-- The second cursor stands in the text where the first one does or behind it. -/
structure Cursor.Advances (source : Text) (cursor next : Cursor) : Prop where
  placed : ∃ before inside after, source = before ++ (inside ++ after) ∧
    cursor = .after before (inside ++ after) ∧ next = .after (before ++ inside) after

namespace Cursor.Advances

variable {cursor middle next : Cursor}

theorem refl (advances : middle.Advances source cursor) : cursor.Advances source cursor := by
  obtain ⟨before, inside, after, same, -, rfl⟩ := advances.placed
  exact ⟨before ++ inside, [], after, by simpa using same, by simp, by simp⟩

theorem trans (first : cursor.Advances source middle) (second : middle.Advances source next) :
    cursor.Advances source next := by
  obtain ⟨before, inside, after, same, rfl, rfl⟩ := first.placed
  obtain ⟨leading, more, beyond, again, here, rfl⟩ := second.placed
  have rest : after = more ++ beyond := congrArg Cursor.rest here
  subst rest
  have whole : before ++ inside ++ (more ++ beyond) = leading ++ (more ++ beyond) := by
    rw [← again, same, List.append_assoc]
  have start : before ++ inside = leading := List.append_cancel_right whole
  subst start
  exact ⟨before, inside ++ more, beyond, by simpa using same, by simp, by simp⟩

theorem takeOne? {accepts : Char → Bool} (start : cursor.Advances source cursor)
    (taken : cursor.takeOne? accepts = some next) : cursor.Advances source next := by
  obtain ⟨before, inside, after, same, here, -⟩ := start.placed
  subst here
  cases split : inside ++ after with
  | nil =>
      rw [split] at taken
      cases taken
  | cons char rest =>
      rw [split] at taken same
      rw [Cursor.takeOne?_after] at taken
      split at taken
      · cases taken
        exact ⟨before, [char], rest, same, rfl, rfl⟩
      · cases taken

theorem take? {chars : List Char} (start : cursor.Advances source cursor)
    (taken : cursor.take? chars = some next) : cursor.Advances source next := by
  induction chars generalizing cursor with
  | nil =>
      cases taken
      exact start
  | cons char chars ih =>
      obtain ⟨middle, first, others⟩ := Option.bind_eq_some_iff.mp taken
      have stepped := start.takeOne? first
      exact stepped.trans (ih (refl stepped) others)

end Cursor.Advances

/-- A match goes on in the text and leaves nodes that stand in it. -/
structure Match.Placed (source : Text) (cursor : Cursor) (found : Match ρ) : Prop where
  advances : cursor.Advances source found.cursor
  nodes : ∀ node ∈ found.nodes, node.Placed source

namespace Match.Placed

variable {cursor : Cursor}

theorem append {between : Cursor} {left right : Match ρ} (leftPlaced : left.Placed source cursor)
    (gap : left.cursor.Advances source between) (rightPlaced : right.Placed source between) :
    (left.append right).Placed source cursor where
  advances := (leftPlaced.advances.trans gap).trans rightPlaced.advances
  nodes node member := by
    rcases List.mem_append.mp member with inLeft | inRight
    · exact leftPlaced.nodes node inLeft
    · exact rightPlaced.nodes node inRight

theorem close {body : Match ρ} (placed : body.Placed source cursor) (name : ρ)
    (definition : RuleDefinition ρ) (mode : Mode) :
    (body.close name definition mode cursor).Placed source cursor where
  advances := placed.advances
  nodes node member := by
    simp only [Match.close] at member
    split at member
    · rw [List.mem_singleton] at member
      subst member
      apply Node.All.node _ placed.nodes
      obtain ⟨before, inside, after, same, here, next⟩ := placed.advances.placed
      rw [here, next]
      exact ⟨before, inside, after, same, rfl, rfl⟩
    · exact placed.nodes node member

end Match.Placed

theorem Yields.placed {grammar : Grammar ρ} {expression : Expression ρ} {mode : Mode}
    {cursor : Cursor} {result : Option (Match ρ)}
    (yields : grammar.Yields expression mode cursor result)
    (start : cursor.Advances source cursor) :
    ∀ found, result = some found → found.Placed source cursor := by
  induction yields with
  | empty | endOfInput | optionalSkips | manyEnds | manyMoreEnds | absent =>
      rintro found ⟨⟩
      exact ⟨start, nofun⟩
  | text taken =>
      rintro found ⟨⟩
      exact ⟨start.take? taken, nofun⟩
  | oneOf taken =>
      rintro found ⟨⟩
      exact ⟨start.takeOne? taken, nofun⟩
  | @rule name mode cursor body _ ih =>
      rintro found ⟨⟩
      exact (ih start body rfl).close name _ mode
  | sequence _ _ _ first between second =>
      rintro found ⟨⟩
      have left := first start _ rfl
      have gap := between left.advances.refl _ rfl
      exact left.append gap.advances (second gap.advances.refl _ rfl)
  | choice _ ih | optional _ ih => exact ih start
  | choiceElse _ _ _ ih => exact ih start
  | many _ _ first rest =>
      rintro found ⟨⟩
      have round := first start _ rfl
      exact round.append round.advances.refl (rest round.advances.refl _ rfl)
  | manyMore _ _ _ between first rest =>
      rintro found ⟨⟩
      have gap := between start _ rfl
      have round := first gap.advances.refl _ rfl
      have more := round.append round.advances.refl (rest round.advances.refl _ rfl)
      exact ⟨gap.advances.trans more.advances, more.nodes⟩
  | textFails | oneOfFails | endOfInputFails | ruleFails | sequenceFails | sequenceBreaks
  | absentFails => nofun

end Grammar

end FlowScript
