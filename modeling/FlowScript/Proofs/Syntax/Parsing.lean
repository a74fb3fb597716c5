import FlowScript.Proofs.Grammar.Termination
import FlowScript.Program

/-!
# What parsing finds

A parse tree is what the grammar matches, and a script is what is read from it.
-/

set_option autoImplicit false

namespace FlowScript

open FlowScript.Grammar

/-- The tree of a text is the only node of a match. -/
theorem parseTree_yields {start : Rule} {source : Text} {tree : Ast.Tree}
    (parsed : parseTree start source = .ok tree) :
    ∃ cursor tokens,
      flow.Yields (.rule start) .spaced ⟨source, 0⟩ (some ⟨[tree], cursor, tokens⟩) := by
  have shows := (flow_parse_shows start source).2
  unfold parseTree at parsed
  split at parsed
  · next found =>
      cases parsed
      rw [found] at shows
      obtain ⟨tokens, yields⟩ := shows
      exact ⟨_, tokens, yields⟩
  · cases parsed
  · cases parsed
  · cases parsed

/-- What the grammar matches leaves one node, and that is the tree of the text. -/
theorem Grammar.Yields.parseTree {start : Rule} {source : Text} {found : Match Rule}
    (yields : flow.Yields (.rule start) .spaced ⟨source, 0⟩ (some found))
    (captured : (flow.rules start).captured) :
    ∃ tree : Ast.Tree, found.nodes = [tree] ∧ tree.rule = start ∧
      parseTree start source = .ok tree := by
  obtain ⟨ends, shows⟩ := flow_parse_shows start source
  unfold FlowScript.parseTree
  cases parsed : flow.parse start source with
  | exhausted => exact absurd parsed ends
  | failed furthest =>
      rw [parsed] at shows
      cases yields.unique shows
  | matched nodes cursor furthest =>
      rw [parsed] at shows
      obtain ⟨tokens, matched⟩ := shows
      cases yields.unique matched
      generalize whole : some _ = result at yields
      cases yields with
      | ruleFails => cases whole
      | rule body =>
          have same := congrArg Match.nodes (Option.some.inj whole)
          simp only [Match.close, if_pos (show Mode.spaced ≠ .sealed ∧ _ from ⟨by decide, captured⟩)]
            at same
          subst same
          exact ⟨_, rfl, rfl, rfl⟩

theorem parseScript_eq_ok {source : Text} {script : Script} :
    parseScript source = .ok script ↔
      ∃ tree, parseTree .program source = .ok tree ∧ Ast.readScript source tree = .ok script := by
  unfold parseScript
  constructor
  · intro parsed
    cases found : parseTree .program source with
    | error =>
        rw [found] at parsed
        cases parsed
    | ok tree =>
        rw [found] at parsed
        refine ⟨tree, rfl, ?_⟩
        change Except.mapError _ (Ast.readScript source tree) = _ at parsed
        cases read : Ast.readScript source tree with
        | error =>
            rw [read] at parsed
            cases parsed
        | ok other =>
            rw [read] at parsed
            cases parsed
            rfl
  · intro parsed
    obtain ⟨tree, found, read⟩ := parsed
    rw [found]
    change Except.mapError _ (Ast.readScript source tree) = _
    rw [read]
    rfl

theorem exists_value_of_isOk {ε α : Type} {result : Except ε α} (valid : result.isOk) :
    ∃ value, result = .ok value := by
  cases result with
  | error => cases valid
  | ok value => exact ⟨value, rfl⟩

def failure? {ε α : Type} : Except ε α → Option ε
  | .error error => some error
  | .ok _ => none

theorem eq_error_of_failure? {ε α : Type} {result : Except ε α} {error : ε}
    (failed : failure? result = some error) : result = .error error := by
  cases result with
  | error => exact congrArg Except.error (Option.some.inj failed)
  | ok => cases failed

theorem exists_script_of_isOk {source : Text} (valid : (parseScript source).isOk) :
    ∃ script, parseScript source = .ok script :=
  exists_value_of_isOk valid

end FlowScript
