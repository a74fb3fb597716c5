import FlowScript.Proofs.Source.Position
import FlowScript.Proofs.Syntax.Parsing

/-!
# Texts that are no scripts

A text that is not in the grammar is reported at an offset between two characters of the
text. The offset never points back into a statement that is complete, and its line and
column, which the matcher counts in its own way, are those of the text.
-/

set_option autoImplicit false

namespace FlowScript

open FlowScript.Grammar (Finished flow)

/-! ## Where the offset points -/

/-- A text is only reported as misplaced where the matcher got no match. -/
theorem parseScript_unexpected {source : Text} {offset : Nat}
    (failed : parseScript source = .error (.unexpected offset)) :
    ∃ fuel, flow.run fuel (.rule .program) .spaced ⟨source, 0⟩ 0 = .failed offset := by
  cases parsed : parseTree .program source with
  | error error =>
      unfold parseScript at failed
      rw [parsed] at failed
      cases failed
      unfold parseTree at parsed
      split at parsed
      · cases parsed
      · cases parsed
      · next found =>
          cases parsed
          exact ⟨_, found⟩
      · cases parsed
  | ok tree =>
      unfold parseScript at failed
      rw [parsed] at failed
      change Except.mapError _ (Ast.readScript source tree) = _ at failed
      cases read : Ast.readScript source tree with
      | error error =>
          rw [read] at failed
          cases failed
      | ok script =>
          rw [read] at failed
          cases failed

/-- A misplaced text is reported between two characters, not before the first text at the
top level that is no statement, and at the line and column that the offset has. -/
theorem misplaced_behind_statements {source : Text} {offset : Nat}
    (failed : parseScript source = .error (.unexpected offset)) :
    source.IsBoundary offset ∧ offset ≤ source.byteSize ∧
      (∃ statements cursor, Finished source statements cursor ∧
        flow.Yields (.rule .statement) .spaced cursor none ∧
        cursor.offset ≤ offset ∧ ∀ statement ∈ statements, statement.stop ≤ offset) ∧
      ∃ span, (ParseError.unexpected offset).span source = span ∧ span.start = offset ∧
        (span.startLine, span.startColumn) = source.lineColumn offset := by
  obtain ⟨fuel, ran⟩ := parseScript_unexpected failed
  have begins : Grammar.Cursor.Advances source ⟨source, 0⟩ ⟨source, 0⟩ :=
    ⟨[], [], source, rfl, rfl, rfl⟩
  have remembers :=
    Grammar.run_remembers flow fuel (.rule .program) .spaced begins begins.isBoundary
  rw [ran] at remembers
  have boundary := remembers.2
  obtain ⟨statements, cursor, finished, fails, le⟩ := Grammar.run_program_failed ran
  refine ⟨boundary, boundary.le_size, ⟨statements, cursor, finished, fails, le, ?_⟩, _, rfl,
    rfl, ?_⟩
  · intro statement member
    exact Nat.le_trans (finished.advances.2 statement member) le
  · simp only [ParseError.span, Text.matcherPosition_eq boundary, Nat.add_sub_cancel]

/-- Behind a call and a line end, a name follows another one. -/
def strayName : Text := "f();\r\n a b".toList

/-- The offset is that of the second name, the fourth character of the second line. -/
theorem strayName_behind_call :
    parseScript strayName = .error (.unexpected 9) ∧ strayName.IsBoundary 9 ∧
      (∃ statements cursor, Finished strayName statements cursor ∧
        flow.Yields (.rule .statement) .spaced cursor none ∧
        cursor.offset ≤ 9 ∧ ∀ statement ∈ statements, statement.stop ≤ 9) ∧
      (ParseError.unexpected 9).span strayName = ⟨9, 9, 1, 3, 1, 4⟩ ∧
      strayName.lineColumn 9 = (1, 3) := by
  have failed : parseScript strayName = .error (.unexpected 9) :=
    eq_error_of_failure? (by decide +kernel)
  obtain ⟨boundary, -, finished, _, rfl, -, place⟩ := misplaced_behind_statements failed
  have shown : (ParseError.unexpected 9).span strayName = ⟨9, 9, 1, 3, 1, 4⟩ := by decide +kernel
  rw [shown] at place
  exact ⟨failed, boundary, finished, shown, place.symm⟩

end FlowScript
