import FlowScript.Run.Machine
import Mathlib.Tactic.Common

/-!
# The deadline that comes first

Of the deadlines before a time the earliest one comes first, and of equal ones the
innermost. A deadline that does not come first may be put off without any effect.
-/

set_option autoImplicit false

namespace FlowScript

/-- The deadline, with so many others around it, is before the time. Those inside
it are later, and those around it are not earlier. -/
structure ComesFirst (time deadline level : Nat) (deadlines : List Nat) : Prop where
  before : deadline < time
  position : ∃ inner outer, deadlines = inner ++ deadline :: outer ∧ outer.length = level ∧
    (∀ other ∈ inner, deadline < other) ∧ ∀ other ∈ outer, deadline ≤ other

theorem firstDeadline?_eq_none {time : Nat} {deadlines : List Nat} :
    firstDeadline? time deadlines = none ↔ ∀ deadline ∈ deadlines, time ≤ deadline := by
  induction deadlines with
  | nil => simp [firstDeadline?]
  | cons deadline outer ih =>
      rw [List.forall_mem_cons, ← ih]
      cases found : firstDeadline? time outer with
      | none => simp [firstDeadline?, found]
      | some earliest =>
          simp only [firstDeadline?, found, reduceCtorEq, and_false, iff_false]
          split <;> simp

theorem firstDeadline?_comesFirst {time deadline level : Nat} {deadlines : List Nat}
    (found : firstDeadline? time deadlines = some (deadline, level)) :
    ComesFirst time deadline level deadlines := by
  induction deadlines generalizing deadline level with
  | nil => simp [firstDeadline?] at found
  | cons head outer ih =>
      cases rest : firstDeadline? time outer with
      | none =>
          have late := firstDeadline?_eq_none.mp rest
          simp only [firstDeadline?, rest] at found
          split at found
          · next before =>
              cases found
              exact ⟨before, [], outer, rfl, rfl, by simp, fun other member =>
                Nat.le_trans (Nat.le_of_lt before) (late other member)⟩
          · cases found
      | some other =>
          obtain ⟨earliest, otherLevel⟩ := other
          obtain ⟨before, inner, around, rfl, rfl, innerLater, outerLater⟩ := ih rest
          simp only [firstDeadline?, rest] at found
          split at found
          · next first =>
              cases found
              refine ⟨first.1, [], _, rfl, rfl, by simp, fun other member => ?_⟩
              rcases List.mem_append.mp member with inside | around
              · exact Nat.le_trans first.2 (Nat.le_of_lt (innerLater other inside))
              · rcases List.mem_cons.mp around with rfl | outside
                · exact first.2
                · exact Nat.le_trans first.2 (outerLater other outside)
          · next later =>
              cases found
              refine ⟨before, head :: inner, around, rfl, rfl, ?_, outerLater⟩
              rw [List.forall_mem_cons]
              exact ⟨by omega, innerLater⟩

theorem ComesFirst.firstDeadline? {time deadline level : Nat} {deadlines : List Nat}
    (first : ComesFirst time deadline level deadlines) :
    firstDeadline? time deadlines = some (deadline, level) := by
  obtain ⟨before, inner, outer, rfl, rfl, innerLater, outerLater⟩ := first
  induction inner with
  | nil =>
      rw [List.nil_append, FlowScript.firstDeadline?]
      cases rest : FlowScript.firstDeadline? time outer with
      | none => simp [before]
      | some found =>
          obtain ⟨-, _, _, rfl, -, -, -⟩ := firstDeadline?_comesFirst rest
          simp [before, outerLater found.1 (by simp)]
  | cons head inner ih =>
      rw [List.forall_mem_cons] at innerLater
      rw [List.cons_append, FlowScript.firstDeadline?, ih innerLater.2]
      simp [Nat.not_le_of_lt innerLater.1]

/-! ## Putting a deadline off -/

section

variable {time own later : Nat} {nested outer : List Nat}

theorem firstDeadline?_none_later (longer : own ≤ later)
    (found : firstDeadline? time (nested ++ own :: outer) = none) :
    firstDeadline? time (nested ++ later :: outer) = none := by
  rw [firstDeadline?_eq_none] at found ⊢
  intro deadline member
  rcases List.mem_append.mp member with inside | around
  · exact found deadline (List.mem_append_left _ inside)
  · rcases List.mem_cons.mp around with rfl | outside
    · exact Nat.le_trans (found own (by simp)) longer
    · exact found deadline (by simp [outside])

theorem ComesFirst.le {deadline level other : Nat} {deadlines : List Nat}
    (first : ComesFirst time deadline level deadlines) (member : other ∈ deadlines) :
    deadline ≤ other := by
  obtain ⟨-, inner, around, rfl, -, innerLater, outerLater⟩ := first
  rcases List.mem_append.mp member with inside | around
  · exact Nat.le_of_lt (innerLater other inside)
  · rcases List.mem_cons.mp around with rfl | outside
    · exact Nat.le_refl _
    · exact outerLater other outside

theorem ComesFirst.eq_own {deadline : Nat}
    (first : ComesFirst time deadline outer.length (nested ++ own :: outer)) : deadline = own := by
  obtain ⟨-, inner, around, same, length, -, -⟩ := first
  have split := List.append_inj' same (by simp [length])
  exact (List.cons.inj split.2).1.symm

/-- Another deadline that comes first still does when this one is put off. -/
theorem ComesFirst.put_off {deadline level : Nat} (longer : own ≤ later)
    (first : ComesFirst time deadline level (nested ++ own :: outer))
    (other : level ≠ outer.length) : ComesFirst time deadline level (nested ++ later :: outer) := by
  obtain ⟨before, inner, around, same, rfl, innerLater, outerLater⟩ := first
  refine ⟨before, ?_⟩
  rcases List.append_eq_append_iff.mp same with ⟨between, rfl, ownSplit⟩ | ⟨between, rfl, split⟩
  · cases between with
    | nil =>
        cases ownSplit
        exact absurd rfl other
    | cons head between =>
        -- It is one of the deadlines around this one.
        obtain ⟨rfl, rfl⟩ := List.cons.inj ownSplit
        refine ⟨nested ++ later :: between, around, by simp, rfl, ?_, outerLater⟩
        intro inside member
        rcases List.mem_append.mp member with nestedMember | member
        · exact innerLater inside (by simp [nestedMember])
        · rcases List.mem_cons.mp member with rfl | betweenMember
          · exact Nat.lt_of_lt_of_le (innerLater own (by simp)) longer
          · exact innerLater inside (by simp [betweenMember])
  · cases between with
    | nil =>
        cases split
        exact absurd rfl other
    | cons head between =>
        -- It is one of the deadlines inside this one.
        obtain ⟨rfl, rfl⟩ := List.cons.inj split
        refine ⟨inner, between ++ later :: outer, by simp, by simp, innerLater, ?_⟩
        intro outside member
        rcases List.mem_append.mp member with betweenMember | member
        · exact outerLater outside (by simp [betweenMember])
        · rcases List.mem_cons.mp member with rfl | outerMember
          · exact Nat.le_trans (outerLater own (by simp)) longer
          · exact outerLater outside (by simp [outerMember])

end

end FlowScript
