import FlowScript.Proofs.Grammar.Tokens
import Mathlib.Data.List.Chain

/-!
# What expressions are spelled with

`Spells` lists the tokens that a match consumes, whatever is tried on the way. Which
tokens may end a match, which may start one and which may stand next to each other is
computed from the expression and checked rule by rule.
-/

set_option autoImplicit false

namespace FlowScript.Grammar

open Expression hiding rule

/-- The words that a match of the expression may consume, with the sketches it leaves. -/
inductive Spells : Expression Rule → List Text → List Sketch → Prop where
  | empty : Spells .empty [] []
  | text {symbol : Text} : Spells (.text symbol) [symbol] []
  | endOfInput : Spells .endOfInput [] []
  | leaf {name : Rule} {word : Text} {sketches : List Sketch} :
      name.isLeaf → name.reading word = some sketches → Spells (.rule name) [word] sketches
  | rule {name : Rule} {words : List Text} {sketches : List Sketch} :
      name.isLeaf = false → Spells (flow.rules name).body words sketches →
      Spells (.rule name) words (name.wrap sketches)
  | sequence {first second : Expression Rule} {words more : List Text}
      {left right : List Sketch} :
      Spells first words left → Spells second more right →
      Spells (.sequence first second) (words ++ more) (left ++ right)
  | choice {first second : Expression Rule} {words : List Text} {sketches : List Sketch} :
      Spells first words sketches → Spells (.choice first second) words sketches
  | choiceElse {first second : Expression Rule} {words : List Text} {sketches : List Sketch} :
      Spells second words sketches → Spells (.choice first second) words sketches
  | optional {body : Expression Rule} {words : List Text} {sketches : List Sketch} :
      Spells body words sketches → Spells (.optional body) words sketches
  | optionalSkips {body : Expression Rule} : Spells (.optional body) [] []
  | many {body : Expression Rule} {words more : List Text} {left right : List Sketch} :
      Spells body words left → Spells (.many body) more right →
      Spells (.many body) (words ++ more) (left ++ right)
  | manyEnds {body : Expression Rule} : Spells (.many body) [] []
  | absent {body : Expression Rule} : Spells (.absent body) [] []

theorem Derives.spells {expression : Expression Rule} {words rest : List Text}
    {sketches : List Sketch} (derives : Derives expression words (some (sketches, rest))) :
    ∃ used, words = used ++ rest ∧ Spells expression used sketches := by
  generalize same : some (sketches, rest) = result at derives
  induction derives generalizing sketches rest with
  | empty =>
      cases same
      exact ⟨[], rfl, .empty⟩
  | @text symbol _ =>
      cases same
      exact ⟨[symbol], rfl, .text⟩
  | endOfInput =>
      cases same
      exact ⟨[], rfl, .endOfInput⟩
  | @leaf _ word _ _ leaf reading =>
      cases same
      exact ⟨[word], rfl, .leaf leaf reading⟩
  | rule inner _ ih =>
      cases same
      obtain ⟨used, split, spells⟩ := ih rfl
      exact ⟨used, split, .rule inner spells⟩
  | sequence _ _ first second =>
      cases same
      obtain ⟨used, rfl, left⟩ := first rfl
      obtain ⟨more, rfl, right⟩ := second rfl
      exact ⟨used ++ more, (List.append_assoc _ _ _).symm, .sequence left right⟩
  | choice _ ih =>
      cases same
      obtain ⟨used, split, spells⟩ := ih rfl
      exact ⟨used, split, .choice spells⟩
  | choiceElse _ _ _ ih =>
      obtain ⟨used, split, spells⟩ := ih same
      exact ⟨used, split, .choiceElse spells⟩
  | optional _ ih =>
      cases same
      obtain ⟨used, split, spells⟩ := ih rfl
      exact ⟨used, split, .optional spells⟩
  | optionalSkips =>
      cases same
      exact ⟨[], rfl, .optionalSkips⟩
  | many _ _ first rest =>
      cases same
      obtain ⟨used, rfl, left⟩ := first rfl
      obtain ⟨more, rfl, right⟩ := rest rfl
      exact ⟨used ++ more, (List.append_assoc _ _ _).symm, .many left right⟩
  | manyEnds =>
      cases same
      exact ⟨[], rfl, .manyEnds⟩
  | absent =>
      cases same
      exact ⟨[], rfl, .absent⟩
  | textFails | endOfInputFails | leafFails | ruleFails | sequenceFails | sequenceBreaks
  | absentFails => cases same

section

variable {expression : Expression Rule} {words : List Text} {sketches : List Sketch}

/-- An expression that cannot be empty consumes something. -/
theorem Spells.nonempty (spells : Spells expression words sketches)
    (consumes : expression.mayBeEmpty flowHeights = false) : words ≠ [] := by
  induction spells with
  | text | leaf => exact List.cons_ne_nil _ _
  | @rule name _ _ _ _ ih =>
      refine ih (Bool.eq_false_iff.mpr fun empty => ?_)
      exact absurd (consumes.symm.trans (flowHeights_suit.mayBeEmpty name empty)) (by decide)
  | sequence _ _ first second =>
      intro none
      obtain ⟨left, right⟩ := List.append_eq_nil_iff.mp none
      simp only [mayBeEmpty, Bool.and_eq_false_iff] at consumes
      rcases consumes with consumes | consumes
      · exact first consumes left
      · exact second consumes right
  | choice _ ih => exact ih (Bool.or_eq_false_iff.mp consumes).1
  | choiceElse _ ih => exact ih (Bool.or_eq_false_iff.mp consumes).2
  | empty | endOfInput | optional | optionalSkips | many | manyEnds | absent => cases consumes

/-! ## Known words -/

/-- A word that the grammar has a use for. -/
def Known (word : Text) : Prop :=
  word ∈ symbols ∨ ∃ name : Rule, name.isLeaf ∧ name.reading word ≠ none

theorem Spells.known (spells : Spells expression words sketches) (coarse : expression.coarse) :
    ∀ word ∈ words, Known word := by
  induction spells with
  | empty | endOfInput | optionalSkips | manyEnds | absent => nofun
  | text =>
      rintro word member
      rw [List.mem_singleton.mp member]
      exact .inl (List.contains_iff_mem.mp coarse)
  | leaf leaf reading =>
      rintro word member
      rw [List.mem_singleton.mp member]
      exact .inr ⟨_, leaf, by rw [reading]; nofun⟩
  | @rule name _ _ inner _ ih =>
      have spaced : name.isSpaced := by simpa [Expression.coarse, inner] using coarse
      exact ih (spaced_rule inner spaced).2.1
  | sequence _ _ first second =>
      obtain ⟨left, right⟩ := Bool.and_eq_true_iff.mp coarse
      intro word member
      rcases List.mem_append.mp member with member | member
      · exact first left word member
      · exact second right word member
  | choice _ ih => exact ih (Bool.and_eq_true_iff.mp coarse).1
  | choiceElse _ ih => exact ih (Bool.and_eq_true_iff.mp coarse).2
  | optional _ ih => exact ih coarse
  | many _ _ first rest =>
      intro word member
      rcases List.mem_append.mp member with member | member
      · exact first coarse word member
      · exact rest coarse word member

theorem Known.ne_nil {word : Text} (known : Known word) : word ≠ [] := by
  rintro rfl
  rcases known with member | ⟨name, leaf, reading⟩
  · exact absurd member (by decide)
  · exact reading (leaf_misses_nil leaf).reading

theorem Known.ne_comment {word : Text} (known : Known word) : word ≠ ['/', '*'] := by
  rintro rfl
  rcases known with member | ⟨name, leaf, reading⟩
  · exact absurd member (by decide)
  · have member : ('/', '*') ∈ breaks := by decide
    have barred : barsLeaf ('/', '*') name := by simp [barsLeaf]
    exact reading (misses_whole member leaf barred).reading

end

/-! ## Points -/

/-- A match of the expression may start with a point, if no rule in it does. -/
def Expression.startsPoint : Expression Rule → Bool
  | .text symbol => symbol == ['.']
  | .sequence first second =>
      first.startsPoint || (first.mayBeEmpty flowHeights && second.startsPoint)
  | .choice first second => first.startsPoint || second.startsPoint
  | .optional body | .many body => body.startsPoint
  | _ => false

/-- A match of the expression ends with a name. -/
def Expression.endsName : Expression Rule → Bool
  | .rule name => name == .identifier
  | .sequence _ second => second.endsName
  | _ => false

/-- Inside the expression points come behind names only. -/
def Expression.namesPoints : Expression Rule → Bool
  | .sequence first second =>
      first.namesPoints && second.namesPoints && (!second.startsPoint || first.endsName)
  | .choice first second => first.namesPoints && second.namesPoints
  | .optional body => body.namesPoints
  | .many body => body.namesPoints && (!body.startsPoint || body.endsName)
  | _ => true

/-- No rule for tokens reads a point. -/
theorem leaf_point {name : Rule} (leaf : name.isLeaf) : name.reading ['.'] = none := by
  have checked : ∀ name : Rule, !name.isLeaf || (name.reading ['.']).isNone :=
    Rule.forall_of_all (by decide)
  have either := checked name
  simp only [leaf, Bool.not_true, Bool.false_or] at either
  exact Option.isNone_iff_eq_none.mp either

theorem rule_points {name : Rule} (inner : name.isLeaf = false) (spaced : name.isSpaced) :
    (flow.rules name).body.startsPoint = false ∧ (flow.rules name).body.namesPoints := by
  have checked : ∀ name : Rule, name.isLeaf || !name.isSpaced ||
      (!(flow.rules name).body.startsPoint && (flow.rules name).body.namesPoints) :=
    Rule.forall_of_all (by decide)
  have either := checked name
  simpa only [inner, spaced, Bool.not_true, Bool.false_or, Bool.and_eq_true,
    Bool.not_eq_true'] using either

/-- A point comes next behind names only. -/
def Tied (word next : Text) : Prop := next = ['.'] → Rule.identifier.reading word ≠ none

section

variable {expression : Expression Rule} {words : List Text} {sketches : List Sketch}

theorem Spells.head_ne_point (spells : Spells expression words sketches)
    (coarse : expression.coarse) (other : expression.startsPoint = false) :
    words.head? ≠ some ['.'] := by
  induction spells with
  | empty | endOfInput | optionalSkips | manyEnds | absent => nofun
  | @text symbol =>
      intro same
      cases same
      cases other
  | leaf leaf reading =>
      intro same
      cases same
      cases reading.symm.trans (leaf_point leaf)
  | @rule name _ _ inner _ ih =>
      have spaced : name.isSpaced := by simpa [Expression.coarse, inner] using coarse
      exact ih (spaced_rule inner spaced).2.1 (rule_points inner spaced).1
  | @sequence _ _ words more _ _ left _ first second =>
      obtain ⟨leftCoarse, rightCoarse⟩ := Bool.and_eq_true_iff.mp coarse
      obtain ⟨leftOther, rightOther⟩ := Bool.or_eq_false_iff.mp other
      cases words with
      | cons word words => exact first leftCoarse leftOther
      | nil =>
          rcases Bool.and_eq_false_iff.mp rightOther with consumes | rightOther
          · exact absurd rfl (left.nonempty consumes)
          · exact second rightCoarse rightOther
  | choice _ ih => exact ih (Bool.and_eq_true_iff.mp coarse).1 (Bool.or_eq_false_iff.mp other).1
  | choiceElse _ ih => exact ih (Bool.and_eq_true_iff.mp coarse).2 (Bool.or_eq_false_iff.mp other).2
  | optional _ ih => exact ih coarse other
  | @many _ words more _ _ _ _ first rest =>
      cases words with
      | cons word words => exact first coarse other
      | nil => exact rest coarse other

theorem Spells.ends_name (spells : Spells expression words sketches) (ends : expression.endsName) :
    ∃ front last, words = front ++ [last] ∧ Rule.identifier.reading last ≠ none := by
  induction spells with
  | @leaf _ word _ _ reading =>
      refine ⟨[], word, rfl, ?_⟩
      rw [← beq_iff_eq.mp ends, reading]
      nofun
  | rule inner =>
      rw [beq_iff_eq.mp ends] at inner
      cases inner
  | @sequence _ _ words _ _ _ _ _ _ ih =>
      obtain ⟨front, last, rfl, name⟩ := ih ends
      exact ⟨words ++ front, last, (List.append_assoc _ _ _).symm, name⟩
  | _ => cases ends

/-- What ends with a name stands before anything, what starts with no point behind anything. -/
theorem Spells.tied {other : Expression Rule} {more : List Text} {others : List Sketch}
    (spells : Spells expression words sketches) (next : Spells other more others)
    (coarse : other.coarse) (named : other.startsPoint → expression.endsName) :
    ∀ word ∈ words.getLast?, ∀ first ∈ more.head?, Tied word first := by
  intro word last first head point
  subst point
  cases starts : other.startsPoint with
  | false => exact absurd head (next.head_ne_point coarse starts)
  | true =>
      obtain ⟨front, name, rfl, reading⟩ := spells.ends_name (named starts)
      rw [List.getLast?_append_of_ne_nil _ (List.cons_ne_nil _ _)] at last
      cases last
      exact reading

/-- Points come behind names only. -/
theorem Spells.chain (spells : Spells expression words sketches) (coarse : expression.coarse)
    (named : expression.namesPoints) : words.IsChain Tied := by
  induction spells with
  | empty | endOfInput | optionalSkips | manyEnds | absent => exact .nil
  | text | leaf => exact .singleton _
  | @rule name _ _ inner _ ih =>
      have spaced : name.isSpaced := by simpa [Expression.coarse, inner] using coarse
      exact ih (spaced_rule inner spaced).2.1 (rule_points inner spaced).2
  | sequence left right first second =>
      obtain ⟨leftCoarse, rightCoarse⟩ := Bool.and_eq_true_iff.mp coarse
      simp only [Expression.namesPoints, Bool.and_eq_true, Bool.or_eq_true,
        Bool.not_eq_true'] at named
      obtain ⟨⟨leftNamed, rightNamed⟩, ends⟩ := named
      apply List.isChain_append.mpr ⟨first leftCoarse leftNamed, second rightCoarse rightNamed, _⟩
      apply left.tied right rightCoarse
      intro starts
      simpa [starts] using ends
  | choice _ ih => exact ih (Bool.and_eq_true_iff.mp coarse).1 (Bool.and_eq_true_iff.mp named).1
  | choiceElse _ ih =>
      exact ih (Bool.and_eq_true_iff.mp coarse).2 (Bool.and_eq_true_iff.mp named).2
  | optional _ ih => exact ih coarse named
  | @many body _ _ _ _ round more first rest =>
      obtain ⟨bodyNamed, ends⟩ := Bool.and_eq_true_iff.mp named
      apply List.isChain_append.mpr ⟨first coarse bodyNamed, rest coarse named, _⟩
      apply round.tied more coarse
      intro starts
      have point : body.startsPoint := starts
      simpa [point] using ends

end

end FlowScript.Grammar
