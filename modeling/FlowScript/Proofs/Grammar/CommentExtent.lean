import FlowScript.Proofs.Grammar.Skipping

/-!
# How far a block comment goes

Inside a block comment every opening mark is tried as a comment of its own. Only where
none of the text that is left closes it does it count as two plain characters. So the
text behind a comment has a say in where the comment ends, unless its marks balance.
-/

set_option autoImplicit false

namespace FlowScript

namespace Text

/-- So many closing marks in a row. -/
def closingMarks : Nat → Text
  | 0 => []
  | depth + 1 => '*' :: '/' :: closingMarks depth

theorem commentEnd?_closingMarks (depth : Nat) : commentEnd? depth (closingMarks depth) = some [] := by
  induction depth with
  | zero => rfl
  | succ depth ih => rw [closingMarks, commentEnd?, ih]

/-- Whatever a text leaves open, closing marks behind it can end. The blank keeps them
apart from a mark that the text may end with in part. -/
theorem exists_commentEnd (depth : Nat) (text : Text) :
    ∃ closing rest, commentEnd? depth (text ++ ' ' :: closing) = some rest := by
  fun_induction commentEnd? depth text with
  | case1 text => exact ⟨[], text ++ [' '], by rw [commentEnd?]⟩
  | case2 depth =>
      refine ⟨closingMarks (depth + 1), [], ?_⟩
      have plain : commentEnd? (depth + 1) (' ' :: closingMarks (depth + 1)) =
          commentEnd? (depth + 1) (closingMarks (depth + 1)) :=
        commentEnd?_cons depth (by rintro tail ⟨⟩) (by rintro tail ⟨⟩)
      rw [List.nil_append, plain, commentEnd?_closingMarks]
  | case3 depth rest ih =>
      obtain ⟨closing, final, ends⟩ := ih
      refine ⟨closing, final, ?_⟩
      rw [List.cons_append, List.cons_append, commentEnd?, ends]
  | case4 depth rest ih =>
      obtain ⟨closing, final, ends⟩ := ih
      refine ⟨closing, final, ?_⟩
      rw [List.cons_append, List.cons_append, commentEnd?, ends]
  | case5 depth char tail opens closes ih =>
      obtain ⟨closing, final, ends⟩ := ih
      refine ⟨closing, final, ?_⟩
      rw [List.cons_append, commentEnd?_cons, ends]
      · intro beyond same
        cases tail with
        | nil => cases same
        | cons next tail =>
            cases same
            exact opens tail rfl rfl
      · intro beyond same
        cases tail with
        | nil => cases same
        | cons next tail =>
            cases same
            exact closes tail rfl rfl

end Text

namespace Grammar

/-- What is left of a text behind the comment it starts with. -/
def behindComment? (text : Text) : Option Text :=
  match flow.run (stepsPerChar * (text.length + 1)) Rule.comment .sealed ⟨text, 0⟩ 0 with
  | .matched _ next _ => some next.rest
  | .failed _ | .exhausted => none

theorem comment_fits : Rule.comment.fits flowHeights .sealed := by decide

/-- The matcher has enough steps to find the comment that is read. -/
theorem behindComment?_of_reads {comment rest : Text} (reads : Reads Rule.comment comment rest) :
    behindComment? (comment ++ rest) = some rest := by
  have ends : flow.run (stepsPerChar * ((comment ++ rest).length + 1)) Rule.comment .sealed
      ⟨comment ++ rest, 0⟩ 0 ≠ .exhausted := by
    refine run_ends flowHeights_suit flow_patient comment_fits ?_
    have below := Expression.height_lt comment_fits
    change flowHeights.bound * (comment ++ rest).length + _ <
      flowHeights.bound * ((comment ++ rest).length + 1)
    rw [Nat.mul_succ]
    omega
  have shows := run_shows flow_patient (stepsPerChar * ((comment ++ rest).length + 1)) Rule.comment
    .sealed ⟨comment ++ rest, 0⟩ 0
  have found := reads []
  unfold behindComment?
  cases ran : flow.run (stepsPerChar * ((comment ++ rest).length + 1)) Rule.comment .sealed
      ⟨comment ++ rest, 0⟩ 0 with
  | exhausted => exact absurd ran ends
  | failed furthest =>
      rw [ran] at shows
      cases found.unique shows
  | matched nodes next furthest =>
      rw [ran] at shows
      obtain ⟨tokens, yields⟩ := shows
      cases found.unique yields
      rfl

/-- A block comment goes as far with any text behind it as on its own if and only if its
marks balance. -/
theorem comment_extent_fixed_iff (body : Text) :
    (∀ rest, behindComment? ('/' :: '*' :: body ++ rest) = some rest) ↔
      body.commentEnd? 1 = some [] := by
  constructor
  · intro fixed
    obtain ⟨closing, final, ends⟩ := Text.exists_commentEnd 1 body
    obtain ⟨inside, same, balanced⟩ := Text.commentEnd?_split ends
    -- With the closing marks behind it the comment ends where its marks balance.
    have reads : Reads Rule.comment ('/' :: '*' :: inside) final := Skipped.reads_block balanced
    have behind := behindComment?_of_reads reads
    have text : '/' :: '*' :: inside ++ final = '/' :: '*' :: body ++ ' ' :: closing := by
      rw [List.cons_append, List.cons_append, ← same]
      rfl
    rw [text, fixed] at behind
    cases behind
    rwa [List.append_cancel_right same]
  · intro balanced rest
    exact behindComment?_of_reads (Skipped.reads_block balanced)

/-- A comment that shares the star of its closing mark with an inner opening mark is whole
on its own. Behind it, a closing mark closes the inner comment, and nothing closes the
outer one. -/
theorem comment_extent_not_fixed :
    ¬∀ body rest, behindComment? ('/' :: '*' :: body) = some [] →
      behindComment? ('/' :: '*' :: body ++ rest) = some rest := by
  intro fixed
  have whole : behindComment? "/* /*/".toList = some [] := by decide +kernel
  have lost : behindComment? ("/* /*/".toList ++ " return 1; // */".toList) = none := by
    decide +kernel
  have kept := fixed " /*/".toList " return 1; // */".toList whole
  exact nomatch lost.symm.trans kept

end Grammar

end FlowScript
