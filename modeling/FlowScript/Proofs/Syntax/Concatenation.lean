import FlowScript.Proofs.Grammar.Firmness
import FlowScript.Proofs.Syntax.Writing

/-!
# Scripts behind each other

Two scripts with a line end between them are one script, with the statements of both. The
line end closes a comment at the end of the first one and keeps the words apart, and the
last statement of the first one does not go on in the second one.
-/

set_option autoImplicit false

namespace FlowScript

open FlowScript.Grammar

namespace Grammar.Writes

variable {left right : List Text} {sketches others : List Sketch}

theorem apart (writes : Writes right others) : Apart right := by
  cases writes with
  | many round => exact round.apart
  | manyEnds => nofun

/-- Statements behind statements are all of them in a row. -/
theorem append (leftWrites : Writes left sketches) (rightWrites : Writes right others) :
    Writes (left ++ right) (sketches ++ others) := by
  obtain ⟨used, rfl, -, whole⟩ := statements_firm (fun inner _ => statement_firm inner) leftWrites
  rw [List.append_nil]
  exact whole rightWrites.apart rightWrites

end Grammar.Writes

/-- Two scripts with a line end between them are the script of all their statements. -/
theorem parse_concatenation {source other : Text} {script otherScript : Script}
    (parsed : parseScript source = .ok script) (otherParsed : parseScript other = .ok otherScript)
    (unambiguous : source.Unambiguous) (otherUnambiguous : other.Unambiguous) :
    ∃ whole, parseScript (source ++ '\n' :: other) = .ok whole ∧
      whole.unlocated = script.unlocated ++ otherScript.unlocated := by
  obtain ⟨tokens, lexes⟩ := lexes_total unambiguous []
  obtain ⟨otherTokens, otherLexes⟩ := lexes_total otherUnambiguous []
  obtain ⟨sketches, writes, depicts⟩ := parseScript_writes lexes parsed
  obtain ⟨otherSketches, otherWrites, otherDepicts⟩ := parseScript_writes otherLexes otherParsed
  have row := lexes.append otherLexes writes.proper otherWrites.proper
  obtain ⟨allTokens, allLexes, same⟩ := row.lexes []
  have allWrites := writes.append otherWrites
  rw [← same] at allWrites
  exact allWrites.parseScript allLexes (depicts.append otherDepicts)

/-- A branch with a comment behind it, and a call. -/
theorem commentedBranch_concatenation :
    ∃ script other whole, parseScript "if a \x7b\x7d // b".toList = .ok script ∧
      parseScript "c();".toList = .ok other ∧
      parseScript ("if a \x7b\x7d // b".toList ++ '\n' :: "c();".toList) = .ok whole ∧
      whole.unlocated = script.unlocated ++ other.unlocated := by
  have valid : (parseScript "if a \x7b\x7d // b".toList).isOk := by decide +kernel
  have otherValid : (parseScript "c();".toList).isOk := by decide +kernel
  have unambiguous : Text.Unambiguous "if a \x7b\x7d // b".toList := by
    unfold Text.Unambiguous
    decide +kernel
  have otherUnambiguous : Text.Unambiguous "c();".toList := by
    unfold Text.Unambiguous
    decide +kernel
  obtain ⟨script, parsed⟩ := exists_script_of_isOk valid
  obtain ⟨other, otherParsed⟩ := exists_script_of_isOk otherValid
  obtain ⟨whole, wholeParsed, same⟩ :=
    parse_concatenation parsed otherParsed unambiguous otherUnambiguous
  exact ⟨script, other, whole, parsed, otherParsed, wholeParsed, same⟩

end FlowScript
