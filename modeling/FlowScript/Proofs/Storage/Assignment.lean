import FlowScript.Proofs.Storage.Filling
import Mathlib.Data.Finset.Card

/-!
# Assignment between values that share cells

Values may share cells, and of target and source either may be a part of the other: all
that an assignment needs is that no cell contains itself. It has read what it copies
before it writes, so that the target gets the contents the source had, in new cells.
-/

set_option autoImplicit false

namespace FlowScript

open Relation

/-! ## Stores without cycles -/

namespace Store

variable {store : Store}

/-- All handles are backed and no cell contains itself. A cell may have many owners. -/
structure Acyclic (store : Store) : Prop where
  backed : store.Backed
  irreflexive : ∀ address, ¬ TransGen store.Holds address address

theorem RankedBy.acyclic {rank : Nat → Nat} (ranked : store.RankedBy rank)
    (backed : store.Backed) : store.Acyclic :=
  ⟨backed, fun _ reached => Nat.lt_irrefl _ (ranked.lt_of_transGen reached)⟩

theorem Sound.acyclic {allowed : Workflow → Prop} (sound : store.Sound allowed) :
    store.Acyclic := by
  obtain ⟨rank, ranked⟩ := sound.ranked
  exact ranked.acyclic sound.backed

open Classical in
/-- The cells below a cell, at any depth. -/
noncomputable def below (store : Store) (address : Nat) : Finset Nat :=
  (Finset.range store.size).filter fun part => TransGen store.Holds address part

theorem mem_below {address part : Nat} :
    part ∈ store.below address ↔ part < store.size ∧ TransGen store.Holds address part := by
  simp [below]

/-- Without cycles, cells are ranked by how many others are below them. -/
theorem Acyclic.ranked (acyclic : store.Acyclic) :
    store.RankedBy fun address => (store.below address).card where
  descends owner part holds := by
    have inside : part < store.size :=
      acyclic.backed.held_lt (store.parts_subset_held owner holds)
    apply Finset.card_lt_card
    rw [Finset.ssubset_iff_of_subset fun other member =>
      mem_below.mpr ⟨(mem_below.mp member).1, .head holds (mem_below.mp member).2⟩]
    exact ⟨part, mem_below.mpr ⟨inside, .single holds⟩,
      fun member => acyclic.irreflexive part (mem_below.mp member).2⟩
  bounded address inBounds := by
    have fewer : (store.below address).card < (Finset.range store.size).card := by
      apply Finset.card_lt_card
      rw [Finset.ssubset_iff_of_subset fun other member =>
        Finset.mem_range.mpr (mem_below.mp member).1]
      exact ⟨address, Finset.mem_range.mpr inBounds,
        fun member => acyclic.irreflexive address (mem_below.mp member).2⟩
    rwa [Finset.card_range] at fewer

end Store

namespace Value

/-! ## What a target gets -/

section

variable {before after : Store} {source : Value} {kind : StoredKind} {address : Nat}

/-- Only the refilled cell and new ones hold new cells, and they hold nothing else. -/
theorem Refills.holds_iff (backed : before.Backed) (inBounds : address < before.size)
    (refills : source.Refills before kind address after) {owner part : Nat}
    (holds : after.Holds owner part) :
    before.size ≤ part ↔ owner = address ∨ before.size ≤ owner := by
  obtain ⟨grown, cell, extended, fresh, -, rfl⟩ := refills
  unfold Store.Holds at holds
  by_cases same : address = owner
  · subst same
    rw [Store.parts_write_same cell (Nat.lt_of_lt_of_le inBounds extended.size_le)] at holds
    exact iff_of_true (fresh part holds) (.inl rfl)
  · rw [Store.parts_write_other grown cell same] at holds
    by_cases old : owner < before.size
    · rw [extended.parts_eq old] at holds
      have partOld := backed.held_lt (before.parts_subset_held owner holds)
      omega
    · have new := (extended.closed owner (Nat.le_of_not_lt old) part holds).1
      omega

theorem Refills.reached_new (backed : before.Backed) (inBounds : address < before.size)
    (refills : source.Refills before kind address after) {part : Nat}
    (reached : TransGen after.Holds address part) : before.size ≤ part := by
  induction reached with
  | single holds => exact (refills.holds_iff backed inBounds holds).mpr (.inl rfl)
  | tail _ holds ih => exact (refills.holds_iff backed inBounds holds).mpr (.inr ih)

end

def isCallable : Value → Bool
  | .member _ _ | .builtin _ | .workflow _ | .invocation _ _ _ _ => true
  | _ => false

/-- A target has the contents which a source had in an older store. -/
inductive Takes (before : Store) (source : Value) (after : Store) : Value → Prop where
  | void : source = .void → Takes before source after .void
  | stored {kind : StoredKind} {address : Nat} {cell : Cell} :
      after.cell? address = some cell →
      source.Fills before kind (assignedNumber kind) after cell →
      Takes before source after (.stored kind address)

/-- An assignment that succeeds answers with the target, which has the contents that the
source had. All cells below it are new, and of the older cells only its own one holds
any of them. -/
theorem assign_takes {store : Store} (acyclic : store.Acyclic) {target source : Value}
    (targetBacked : target.Backed store) (sourceBacked : source.Backed store)
    (noError : source.isError = false) (noCallable : target.isCallable = false) {result : Value}
    {final : Store} (assigns : (target.assign source).run.run store = (.ok result, final)) :
    result = target ∧ source.Takes store final target ∧
      ∀ address, target.address? = some address →
        ∀ part, TransGen final.Holds address part → store.size ≤ part ∧
          ∀ owner, final.Holds owner part → owner = address ∨ store.size ≤ owner := by
  cases target with
  | stored kind address =>
      have inBounds := targetBacked address rfl
      obtain ⟨rfl, -, refills⟩ := (assign_refills acyclic.backed acyclic.ranked sourceBacked
        noError kind address).of_run assigns result rfl
      obtain ⟨cell, found, fills⟩ := refills.fills inBounds
      refine ⟨rfl, .stored found fills, fun other own part reached => ?_⟩
      cases own
      have new := refills.reached_new acyclic.backed inBounds reached
      exact ⟨new, fun owner holds =>
        (refills.holds_iff acyclic.backed inBounds holds).mp new⟩
  | void =>
      have same := (assign_bare rfl noError).of_run assigns result rfl
      cases source with
      | void =>
          cases assigns
          exact ⟨rfl, .void rfl, nofun⟩
      | _ => cases same
  | error tag message location =>
      have same := (assign_bare rfl noError).of_run assigns result rfl
      cases source with
      | error => cases noError
      | _ => cases same
  | member | builtin | workflow | invocation => cases noCallable

/-- A dictionary that holds another one twice. -/
def doubledStore : Store :=
  ⟨#[.scalar (.integer 1), .dictionary ⟨[("x", .stored .integer 0)]⟩,
    .dictionary ⟨[("first", .stored .dictionary 1), ("second", .stored .dictionary 1)]⟩], 0⟩

theorem doubledStore_parts (owner : Nat) : ∀ part ∈ doubledStore.parts owner, part < owner := by
  match owner with
  | 0 => exact nofun
  | 1 => decide
  | 2 => decide
  | _ + 3 => exact nofun

theorem doubledStore_acyclic : doubledStore.Acyclic := by
  have ranked : doubledStore.RankedBy id := ⟨doubledStore_parts, fun _ inBounds => inBounds⟩
  refine ranked.acyclic fun value member address refers => ?_
  have all : ∀ part ∈ doubledStore.held, part < doubledStore.size := by decide
  exact all address (mem_addresses.mpr ⟨value, member, refers⟩)

/-- The outer dictionary takes the contents of the inner one, `d = d.first`. -/
theorem doubledStore_takes :
    ∃ final, ((stored .dictionary 2).assign (stored .dictionary 1)).run.run doubledStore =
        (.ok (stored .dictionary 2), final) ∧
      (stored .dictionary 1).Takes doubledStore final (stored .dictionary 2) ∧
      ∀ part, TransGen final.Holds 2 part → doubledStore.size ≤ part := by
  have inBounds : ∀ {kind : StoredKind} {address : Nat}, address < 3 →
      (stored kind address).Backed doubledStore := by
    intro kind address below other refers
    cases refers
    exact below
  have assigns : ((stored .dictionary 2).assign (stored .dictionary 1)).run.run doubledStore =
      (.ok (stored .dictionary 2), ⟨#[.scalar (.integer 1),
        .dictionary ⟨[("x", .stored .integer 0)]⟩, .dictionary ⟨[("x", .stored .integer 3)]⟩,
        .scalar (.integer 1)], 0⟩) := rfl
  obtain ⟨-, takes, new⟩ := assign_takes doubledStore_acyclic (inBounds (by decide))
    (inBounds (by decide)) rfl rfl assigns
  exact ⟨_, assigns, takes, fun part reached => (new 2 rfl part reached).1⟩

end Value

end FlowScript
