import FlowScript.Proofs.Storage.Contents

/-!
# Values of the same structure

Values of two stores are compared by their contents. Values without a cell are
compared by a relation that is given, so that two errors with one message can count
as the same. Copies of values of the same structure have the same structure.
-/

set_option autoImplicit false

namespace FlowScript

/-- Two values have the same structure, the first one in a store and the second one in
another. -/
inductive Value.Resembles (same : Value → Value → Prop) (left right : Store) :
    Value → Value → Prop where
  | bare {value other : Value} : value.address? = none → other.address? = none →
      same value other → Resembles same left right value other
  | stored {kind : StoredKind} {address other : Nat} {cell copy : Cell} :
      left.cell? address = some cell → right.cell? other = some copy →
      cell.form = copy.form →
      (∀ pair ∈ cell.values.zip copy.values, Resembles same left right pair.1 pair.2) →
      Resembles same left right (.stored kind address) (.stored kind other)

/-- Two cells have the same form, and their values the same structure. -/
structure Cell.Resembles (same : Value → Value → Prop) (left right : Store)
    (cell other : Cell) : Prop where
  form : cell.form = other.form
  values : ∀ pair ∈ cell.values.zip other.values, pair.1.Resembles same left right pair.2

theorem Cell.scalar_of_form {cell : Cell} {value : Scalar}
    (same : cell.form = (Cell.scalar value).form) : cell = .scalar value := by
  cases cell with
  | scalar other => exact congrArg Cell.scalar (Form.scalar.inj same)
  | _ => cases same

/-- Corners of a square of lists of one length. -/
theorem exists_of_mem_zip {α β γ δ : Type} {xs : List α} {ys : List β} {us : List γ}
    {vs : List δ} {pair : γ × δ} (member : pair ∈ us.zip vs) (left : xs.length = us.length)
    (right : ys.length = vs.length) :
    ∃ x y, (x, y) ∈ xs.zip ys ∧ (x, pair.1) ∈ xs.zip us ∧ (y, pair.2) ∈ ys.zip vs := by
  obtain ⟨index, atIndex⟩ := List.mem_iff_getElem?.mp member
  obtain ⟨first, second⟩ := List.getElem?_zip_eq_some.mp atIndex
  obtain ⟨firstBounds, -⟩ := List.getElem?_eq_some_iff.mp first
  obtain ⟨secondBounds, -⟩ := List.getElem?_eq_some_iff.mp second
  have leftBounds : index < xs.length := left ▸ firstBounds
  have rightBounds : index < ys.length := right ▸ secondBounds
  have atLeft := List.getElem?_eq_getElem leftBounds
  have atRight := List.getElem?_eq_getElem rightBounds
  exact ⟨xs[index], ys[index],
    List.mem_of_getElem? (List.getElem?_zip_eq_some.mpr ⟨atLeft, atRight⟩),
    List.mem_of_getElem? (List.getElem?_zip_eq_some.mpr ⟨atLeft, first⟩),
    List.mem_of_getElem? (List.getElem?_zip_eq_some.mpr ⟨atRight, second⟩)⟩

namespace Value.Resembles

variable {same : Value → Value → Prop} {left right : Store} {value other : Value}

theorem kind_eq (resembles : value.Resembles same left right other)
    (kinds : ∀ value other, same value other → value.kind = other.kind) :
    value.kind = other.kind := by
  cases resembles with
  | bare _ _ holds => exact kinds _ _ holds
  | stored => rfl

theorem scalar?_eq (resembles : value.Resembles same left right other) :
    left.scalar? value = right.scalar? other := by
  cases resembles with
  | bare bare otherBare _ =>
      cases value <;> cases bare <;> cases other <;> cases otherBare <;> rfl
  | @stored kind address other cell copy found copied sameForm _ =>
      simp only [Store.scalar?, found, copied]
      cases copy with
      | scalar value => rw [Cell.scalar_of_form sameForm]
      | array | dictionary =>
          cases cell with
          | scalar => cases sameForm
          | array | dictionary => rfl

/-- Values of one kind without parts have the same structure if they are the same. -/
theorem of_scalar {scalar : Scalar} (kinds : value.kind = other.kind)
    (found : left.scalar? value = some scalar) (otherFound : right.scalar? other = some scalar) :
    value.Resembles same left right other := by
  cases value with
  | stored kind address =>
      cases other with
      | stored otherKind otherAddress =>
          cases kinds
          simp only [Store.scalar?] at found otherFound
          split at found
          · next cell =>
              cases found
              split at otherFound
              · next otherCell =>
                  cases otherFound
                  exact .stored cell otherCell rfl nofun
              · cases otherFound
          · cases found
      | _ => cases kinds
  | _ => cases found

theorem of_cells {kind : StoredKind} {address other : Nat} {cell copy : Cell}
    (found : left.cell? address = some cell) (copied : right.cell? other = some copy)
    (resembles : cell.Resembles same left right copy) :
    (Value.stored kind address).Resembles same left right (.stored kind other) :=
  .stored found copied resembles.form resembles.values

theorem cells {kind : StoredKind} {address other : Nat} {cell copy : Cell}
    (resembles : (Value.stored kind address).Resembles same left right (.stored kind other))
    (found : left.cell? address = some cell) (copied : right.cell? other = some copy) :
    cell.Resembles same left right copy := by
  cases resembles with
  | bare bare => cases bare
  | stored otherFound otherCopied form values =>
      cases found.symm.trans otherFound
      cases copied.symm.trans otherCopied
      exact ⟨form, values⟩

/-- Deep copies of values of the same structure have the same structure. -/
theorem copies (resembles : value.Resembles same left right other) {leftAfter rightAfter : Store}
    {copy otherCopy : Value} (copied : value.Alike left leftAfter copy)
    (otherCopied : other.Alike right rightAfter otherCopy) :
    copy.Resembles same leftAfter rightAfter otherCopy := by
  induction resembles generalizing copy otherCopy with
  | bare bare otherBare holds =>
      cases copied with
      | stored => cases bare
      | bare _ =>
          cases otherCopied with
          | stored => cases otherBare
          | bare _ => exact .bare bare otherBare holds
  | stored found otherFound form _ ih =>
      cases copied with
      | bare bare => cases bare
      | stored foundAgain copyFound copyForm parts =>
          cases found.symm.trans foundAgain
          cases otherCopied with
          | bare bare => cases bare
          | stored otherFoundAgain otherCopyFound otherCopyForm otherParts =>
              cases otherFound.symm.trans otherFoundAgain
              refine .stored copyFound otherCopyFound
                ((copyForm.symm.trans form).trans otherCopyForm) fun pair member => ?_
              obtain ⟨part, otherPart, parents, first, second⟩ := exists_of_mem_zip member
                (Cell.length_values copyForm) (Cell.length_values otherCopyForm)
              exact ih _ parents (parts _ first) (otherParts _ second)

end Value.Resembles

theorem Cell.Resembles.copies {same : Value → Value → Prop}
    {left right leftAfter rightAfter : Store} {cell other copy otherCopy : Cell}
    (resembles : cell.Resembles same left right other) (copied : cell.Alike left leftAfter copy)
    (otherCopied : other.Alike right rightAfter otherCopy) :
    copy.Resembles same leftAfter rightAfter otherCopy := by
  refine ⟨(copied.form.symm.trans resembles.form).trans otherCopied.form, fun pair member => ?_⟩
  obtain ⟨part, otherPart, parents, first, second⟩ := exists_of_mem_zip member
    (Cell.length_values copied.form) (Cell.length_values otherCopied.form)
  exact (resembles.values _ parents).copies (copied.values _ first) (otherCopied.values _ second)

/-! ## Copies of cells -/

variable {allowed : Workflow → Prop}

/-- A new copy stays one when an older cell is written over. -/
theorem Value.Alike.write {left before after : Store} {value copy : Value}
    (alike : value.Alike left after copy) (grown : before.Extends after)
    (fresh : ∀ address, copy.address? = some address → before.size ≤ address) {address : Nat}
    (old : address < before.size) (cell : Cell) :
    value.Alike left (after.write address cell) copy := by
  induction alike with
  | bare bare => exact .bare bare
  | @stored kind source target original copied found copyFound form _ ih =>
      have new : before.size ≤ target := fresh target rfl
      have elsewhere : address ≠ target := by omega
      refine .stored found (by rw [Store.cell?_write_other after cell elsewhere, copyFound]) form
        fun pair member => ih pair member fun part refers => ?_
      have inside : part ∈ after.parts target := by
        rw [Store.parts_of_cell copyFound]
        exact mem_addresses.mpr ⟨pair.2, (List.of_mem_zip member).2, refers⟩
      exact (grown.closed target new part inside).1

theorem Cell.Alike.write {left before after : Store} {cell copy : Cell}
    (alike : cell.Alike left after copy) (grown : before.Extends after)
    (fresh : ∀ part ∈ copy.parts, before.size ≤ part) {address : Nat}
    (old : address < before.size) (written : Cell) :
    cell.Alike left (after.write address written) copy := by
  refine ⟨alike.form, fun pair member => ?_⟩
  refine (alike.values pair member).write grown (fun part refers => ?_) old written
  exact fresh part (mem_addresses.mpr ⟨pair.2, (List.of_mem_zip member).2, refers⟩)

/-- A copy of a cell that was made since a store, of new cells only. -/
structure Cell.Renewed (before after : Store) (cell copy : Cell) : Prop where
  grown : before.Extends after
  alike : cell.Alike before after copy
  fresh : ∀ part ∈ copy.parts, before.size ≤ part ∧ part < after.size

/-- The copied contents of a stored value are those of its cell. Only a value without a
cell has none. -/
theorem Value.detachedCell?_renewed {store : Store} (cellsBacked : store.Backed)
    {rank : Nat → Nat} (ranked : store.RankedBy rank) {value : Value}
    (backed : value.Backed store) :
    After value.detachedCell? store fun result final =>
      match result with
      | some copy => ∃ kind address cell, value = .stored kind address ∧
          store.cell? address = some cell ∧ cell.Renewed store final copy
      | none => value.address? = none := by
  cases value with
  | stored kind address =>
      obtain ⟨cell, found⟩ := Store.exists_cell_of_lt (backed address rfl)
      simp only [detachedCell?, after_bind, after_get, found, after_pure]
      apply (cell.mapM_duplicates (.refl store) ?_).imp
      · intro copy final ends
        obtain ⟨form, copied⟩ := ends
        exact ⟨kind, address, cell, rfl, found, copied.grown, ⟨form, copied.alike⟩,
          copied.parts form⟩
      · intro part member middle grown
        have partBacked := cellsBacked.part found member
        exact detachTo_duplicates cellsBacked ranked store.walkDepth part grown partBacked
          (rank_lt_walkDepth ranked partBacked)
  | _ => rfl

end FlowScript
