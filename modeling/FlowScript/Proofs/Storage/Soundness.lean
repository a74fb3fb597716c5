import FlowScript.Proofs.After
import FlowScript.Proofs.Storage.Reference
import Mathlib.Logic.Relation

/-!
# Sound stores

In a sound store no cell is held twice, every cell outranks the cells it holds,
and all values are in bounds. The rank rules cycles out and bounds every walk
over the store. A new cell and a cell written over keep the store sound as long
as what they hold was held by nobody.
-/

set_option autoImplicit false

namespace FlowScript

variable {allowed : Workflow → Prop}

/-- If the value is a handle of a cell, that cell is there. -/
def Value.Backed (store : Store) (value : Value) : Prop :=
  ∀ address, value.address? = some address → address < store.size

theorem Value.Within.backed {store : Store} {value : Value}
    (within : value.Within allowed store.size) : value.Backed store :=
  fun _ refers => within.address_lt refers

namespace Store

/-! ## Soundness -/

/-- Every cell has a rank above those of the cells it holds. -/
structure RankedBy (store : Store) (rank : Nat → Nat) : Prop where
  descends : ∀ owner, ∀ part ∈ store.parts owner, rank part < rank owner
  bounded : ∀ address < store.size, rank address < store.size

/-- A cell holds a handle of another one. -/
def Holds (store : Store) (owner part : Nat) : Prop := part ∈ store.parts owner

/-- A handle in a cell leads further down. -/
theorem RankedBy.lt_of_part {store : Store} {rank : Nat → Nat} (ranked : store.RankedBy rank)
    {address : Nat} {cell : Cell} (found : store.cell? address = some cell) {value : Value}
    (member : value ∈ cell.values) {below : Nat} (refers : value.address? = some below) :
    rank below < rank address :=
  ranked.descends address below (mem_parts found member refers)

theorem RankedBy.lt_of_transGen {store : Store} {rank : Nat → Nat} (ranked : store.RankedBy rank)
    {owner part : Nat} (reached : Relation.TransGen store.Holds owner part) :
    rank part < rank owner := by
  induction reached with
  | single holds => exact ranked.descends _ _ holds
  | tail _ holds ih => exact Nat.lt_trans (ranked.descends _ _ holds) ih

/-- No cell is held by two places, no cell contains itself, and every value of a
cell is in bounds. -/
structure Sound (allowed : Workflow → Prop) (store : Store) : Prop where
  single : store.held.Nodup
  ranked : ∃ rank, store.RankedBy rank
  within : ∀ value ∈ store.values, value.Within allowed store.size

theorem sound_empty : Sound allowed empty where
  single := List.nodup_nil
  ranked := ⟨id, by simp [parts, cell?, empty], by simp [size, empty]⟩
  within := by simp [values, empty]

/-- All handles in cells are backed. -/
def Backed (store : Store) : Prop := ∀ value ∈ store.values, value.Backed store

theorem Backed.part {store : Store} (backed : store.Backed) {address : Nat} {cell : Cell}
    (found : store.cell? address = some cell) {value : Value} (member : value ∈ cell.values) :
    value.Backed store :=
  backed value (values_of_cell found member)

theorem Backed.held_lt {store : Store} (backed : store.Backed) {address : Nat}
    (member : address ∈ store.held) : address < store.size := by
  obtain ⟨value, valueMember, refers⟩ := mem_addresses.mp member
  exact backed value valueMember address refers

theorem Sound.backed {store : Store} (sound : store.Sound allowed) : store.Backed :=
  fun value member => (sound.within value member).backed

theorem Sound.held_lt {store : Store} (sound : store.Sound allowed) {address : Nat}
    (member : address ∈ store.held) : address < store.size :=
  sound.backed.held_lt member

theorem Sound.parts_lt {store : Store} (sound : store.Sound allowed) {owner part : Nat}
    (member : part ∈ store.parts owner) : part < store.size :=
  sound.held_lt (store.parts_subset_held owner member)

theorem Sound.cell_within {store : Store} (sound : store.Sound allowed) {address : Nat}
    {cell : Cell} (found : store.cell? address = some cell) :
    ∀ value ∈ cell.values, value.Within allowed store.size :=
  fun value member => sound.within value (values_of_cell found member)

/-! ## How a store changes -/

/-- A cell that nobody held before is held by nobody afterwards, unless it is
new. -/
structure Evolves (before after : Store) : Prop where
  size_le : before.size ≤ after.size
  old_held : ∀ address < before.size, address ∈ after.held → address ∈ before.held

theorem Evolves.refl (store : Store) : store.Evolves store :=
  ⟨Nat.le_refl _, fun _ _ member => member⟩

/-- Cells were added and none was changed. A new cell holds only new cells, which
were made before it. -/
structure Extends (before after : Store) : Prop where
  size_le : before.size ≤ after.size
  kept : ∀ address < before.size, after.cell? address = before.cell? address
  closed : ∀ owner, before.size ≤ owner →
    ∀ part ∈ after.parts owner, before.size ≤ part ∧ part < owner

theorem Extends.parts_eq {before after : Store} (grown : before.Extends after) {owner : Nat}
    (old : owner < before.size) : after.parts owner = before.parts owner := by
  simp only [parts, grown.kept owner old]

theorem Extends.refl (store : Store) : store.Extends store where
  size_le := Nat.le_refl _
  kept _ _ := rfl
  closed owner new part member := by
    have missing : store.cell? owner = none := Array.getElem?_eq_none new
    simp [parts, missing] at member

theorem Extends.trans {first second third : Store} (left : first.Extends second)
    (right : second.Extends third) : first.Extends third where
  size_le := Nat.le_trans left.size_le right.size_le
  kept address old := by
    rw [right.kept address (Nat.lt_of_lt_of_le old left.size_le), left.kept address old]
  closed owner new part member := by
    by_cases recent : owner < second.size
    · rw [right.parts_eq recent] at member
      exact left.closed owner new part member
    · obtain ⟨partNew, smaller⟩ := right.closed owner (Nat.le_of_not_lt recent) part member
      exact ⟨Nat.le_trans left.size_le partNew, smaller⟩

theorem Extends.evolves {before after : Store} (grown : before.Extends after) :
    before.Evolves after where
  size_le := grown.size_le
  old_held address inBounds member := by
    obtain ⟨owner, part⟩ := mem_held member
    by_cases old : owner < before.size
    · rw [grown.parts_eq old] at part
      exact before.parts_subset_held owner part
    · obtain ⟨new, -⟩ := grown.closed owner (Nat.le_of_not_lt old) address part
      omega

end Store

/-! ## Values that nobody holds -/

/-- The cells of some values are all different, at least as new as a base, and
held by nobody yet. -/
structure Loose (base : Nat) (held : List Nat) (values : List Value) : Prop where
  single : (addresses values).Nodup
  fresh : ∀ address ∈ addresses values, base ≤ address
  free : ∀ address ∈ addresses values, address ∉ held

theorem Loose.nil {base : Nat} {held : List Nat} : Loose base held [] :=
  ⟨List.nodup_nil, by simp, by simp⟩

theorem Loose.of_address?_eq_none {base : Nat} {held : List Nat} {value : Value}
    (bare : value.address? = none) : Loose base held [value] := by
  have none : addresses [value] = [] := by simp [addresses, bare]
  constructor <;> simp [none]

theorem Loose.of_subperm {base : Nat} {held : List Nat} {left right : List Value}
    (contained : List.Subperm left right) (loose : Loose base held right) :
    Loose base held left where
  single := nodup_of_subperm (addresses_subperm contained) loose.single
  fresh address member := loose.fresh address ((addresses_subperm contained).subset member)
  free address member := loose.free address ((addresses_subperm contained).subset member)

theorem Loose.mono {older base : Nat} {held : List Nat} {values : List Value}
    (loose : Loose base held values) (le : older ≤ base) : Loose older held values where
  single := loose.single
  fresh address member := Nat.le_trans le (loose.fresh address member)
  free := loose.free

/-- Values made one after the other are loose together: the earlier ones are
below the bound at which the later ones start. -/
theorem Loose.append {base bound : Nat} {held : List Nat} {left right : List Value}
    (earlier : Loose base held left) (later : Loose bound held right) (le : base ≤ bound)
    (below : ∀ value ∈ left, value.Within allowed bound) : Loose base held (left ++ right) where
  single := by
    rw [addresses_append, List.nodup_append]
    refine ⟨earlier.single, later.single, ?_⟩
    intro address leftMember other rightMember same
    subst same
    obtain ⟨value, member, refers⟩ := mem_addresses.mp leftMember
    have inBounds := (below value member).address_lt refers
    have new := later.fresh address rightMember
    omega
  fresh address member := by
    rcases List.mem_append.mp (addresses_append left right ▸ member) with leftMember | rightMember
    · exact earlier.fresh address leftMember
    · exact Nat.le_trans le (later.fresh address rightMember)
  free address member := by
    rcases List.mem_append.mp (addresses_append left right ▸ member) with leftMember | rightMember
    · exact earlier.free address leftMember
    · exact later.free address rightMember

theorem Loose.evolve {base : Nat} {before after : Store} {values : List Value}
    (loose : Loose base before.held values) (evolves : before.Evolves after)
    (within : ∀ value ∈ values, value.Within allowed before.size) :
    Loose base after.held values where
  single := loose.single
  fresh := loose.fresh
  free address member held := by
    obtain ⟨value, valueMember, refers⟩ := mem_addresses.mp member
    have inBounds := (within value valueMember).address_lt refers
    exact loose.free address member (evolves.old_held address inBounds held)

namespace Store

/-! ## New cells -/

def push (store : Store) (cell : Cell) : Store := { store with cells := store.cells.push cell }

theorem size_push (store : Store) (cell : Cell) : (store.push cell).size = store.size + 1 :=
  Array.size_push cell

theorem cell?_push_old {store : Store} {cell : Cell} {address : Nat}
    (old : address < store.size) : (store.push cell).cell? address = store.cell? address :=
  Array.getElem?_push_lt old |>.trans (Array.getElem?_eq_getElem old).symm

theorem cell?_push_new (store : Store) (cell : Cell) :
    (store.push cell).cell? store.size = some cell :=
  Array.getElem?_push_size

theorem values_push (store : Store) (cell : Cell) :
    (store.push cell).values = store.values ++ cell.values := by
  simp [values, push, List.flatMap_append]

theorem held_push (store : Store) (cell : Cell) :
    (store.push cell).held = store.held ++ cell.parts := by
  simp [held, values_push, Cell.parts]

theorem parts_push_old {store : Store} {cell : Cell} {owner : Nat} (old : owner < store.size) :
    (store.push cell).parts owner = store.parts owner := by
  simp only [parts, cell?_push_old old]

theorem parts_push_new (store : Store) (cell : Cell) :
    (store.push cell).parts store.size = cell.parts :=
  parts_of_cell (cell?_push_new store cell)

theorem parts_eq_nil {store : Store} {owner : Nat} (outside : store.size ≤ owner) :
    store.parts owner = [] := by
  have missing : store.cell? owner = none := Array.getElem?_eq_none outside
  simp only [parts, missing]

theorem Sound.push {store : Store} (sound : store.Sound allowed) {base : Nat} {cell : Cell}
    (loose : Loose base store.held cell.values)
    (within : ∀ value ∈ cell.values, value.Within allowed store.size) :
    (store.push cell).Sound allowed where
  single := by
    rw [held_push, List.nodup_append]
    refine ⟨sound.single, loose.single, ?_⟩
    intro address held other part same
    subst same
    exact loose.free address part held
  ranked := by
    obtain ⟨rank, ranked⟩ := sound.ranked
    -- The new cell goes on top: old ranks are below the old size.
    refine ⟨fun address => if address = store.size then store.size else rank address, ?_, ?_⟩
    · intro owner part member
      rcases Nat.lt_trichotomy owner store.size with old | rfl | outside
      · rw [parts_push_old old] at member
        have partOld := sound.parts_lt member
        simp only [Nat.ne_of_lt old, Nat.ne_of_lt partOld, if_false]
        exact ranked.descends owner part member
      · rw [parts_push_new] at member
        obtain ⟨value, valueMember, refers⟩ := mem_addresses.mp member
        have partOld := (within value valueMember).address_lt refers
        simp only [Nat.ne_of_lt partOld, if_false, if_true]
        exact ranked.bounded part partOld
      · rw [parts_eq_nil (by rw [size_push]; omega)] at member
        cases member
    · intro address inBounds
      rw [size_push] at inBounds ⊢
      split
      · omega
      · have old := ranked.bounded address (by omega)
        omega
  within value member := by
    rw [values_push] at member
    rw [size_push]
    rcases List.mem_append.mp member with old | new
    · exact (sound.within value old).mono (Nat.le_succ _)
    · exact (within value new).mono (Nat.le_succ _)

theorem Extends.push_fresh {before store : Store} (grown : before.Extends store) {cell : Cell}
    (fresh : ∀ part ∈ cell.parts, before.size ≤ part ∧ part < store.size) :
    before.Extends (store.push cell) where
  size_le := by
    have le := grown.size_le
    rw [size_push]
    omega
  kept address old := by
    rw [cell?_push_old (Nat.lt_of_lt_of_le old grown.size_le), grown.kept address old]
  closed owner new part member := by
    rcases Nat.lt_trichotomy owner store.size with old | rfl | outside
    · rw [parts_push_old old] at member
      exact grown.closed owner new part member
    · rw [parts_push_new] at member
      exact fresh part member
    · rw [parts_eq_nil (by rw [size_push]; omega)] at member
      cases member

theorem Extends.push {before store : Store} (grown : before.Extends store) {cell : Cell}
    (loose : Loose before.size store.held cell.values)
    (within : ∀ value ∈ cell.values, value.Within allowed store.size) :
    before.Extends (store.push cell) := by
  apply grown.push_fresh
  intro part member
  obtain ⟨value, valueMember, refers⟩ := mem_addresses.mp member
  exact ⟨loose.fresh part member, (within value valueMember).address_lt refers⟩

theorem Sound.loose_push {store : Store} (sound : store.Sound allowed) {cell : Cell}
    (within : ∀ value ∈ cell.values, value.Within allowed store.size) (kind : StoredKind) :
    Loose store.size (store.push cell).held [.stored kind store.size] where
  single := List.nodup_singleton _
  fresh address member := by
    have same : address = store.size := by simpa [addresses, Value.address?] using member
    exact Nat.le_of_eq same.symm
  free address member held := by
    have same : address = store.size := by simpa [addresses, Value.address?] using member
    subst same
    rw [held_push] at held
    rcases List.mem_append.mp held with old | new
    · exact Nat.lt_irrefl _ (sound.held_lt old)
    · obtain ⟨value, valueMember, refers⟩ := mem_addresses.mp new
      exact Nat.lt_irrefl _ ((within value valueMember).address_lt refers)

/-! ## Cells written over -/

@[simp] theorem size_write (store : Store) (address : Nat) (cell : Cell) :
    (store.write address cell).size = store.size := by
  simp [write, size]

theorem cell?_write_same {store : Store} {address : Nat} (cell : Cell)
    (inBounds : address < store.size) :
    (store.write address cell).cell? address = some cell := by
  simp [write, cell?, show address < store.cells.size from inBounds]

theorem cell?_write_other (store : Store) {address other : Nat} (cell : Cell)
    (differs : address ≠ other) : (store.write address cell).cell? other = store.cell? other := by
  simp [write, cell?, Array.getElem?_setIfInBounds_ne differs]

theorem parts_write_same {store : Store} {address : Nat} (cell : Cell)
    (inBounds : address < store.size) : (store.write address cell).parts address = cell.parts :=
  parts_of_cell (cell?_write_same cell inBounds)

theorem parts_write_other (store : Store) {address other : Nat} (cell : Cell)
    (differs : address ≠ other) : (store.write address cell).parts other = store.parts other := by
  simp only [parts, cell?_write_other store cell differs]

theorem values_split {store : Store} {address : Nat} {old : Cell}
    (found : store.cell? address = some old) :
    ∃ before after, store.values = before ++ old.values ++ after ∧
      ∀ cell, (store.write address cell).values = before ++ cell.values ++ after := by
  obtain ⟨inBounds, atAddress⟩ := Array.getElem?_eq_some_iff.mp found
  have inList : address < store.cells.toList.length := inBounds
  refine ⟨(store.cells.toList.take address).flatMap Cell.values,
    (store.cells.toList.drop (address + 1)).flatMap Cell.values, ?_, ?_⟩
  · have whole : store.cells.toList = store.cells.toList.take address ++ old ::
        store.cells.toList.drop (address + 1) := by
      have dropped := List.drop_eq_getElem_cons inList
      rw [Array.getElem_toList, atAddress] at dropped
      rw [← dropped, List.take_append_drop]
    unfold values
    conv_lhs => rw [whole]
    simp [List.flatMap_append]
  · intro cell
    unfold values write
    rw [Array.toList_setIfInBounds, List.set_eq_take_append_cons_drop, if_pos inList]
    simp [List.flatMap_append]

theorem mem_values_write {store : Store} {address : Nat} {cell : Cell} {value : Value}
    (member : value ∈ (store.write address cell).values) :
    value ∈ store.values ∨ value ∈ cell.values := by
  obtain ⟨other, otherMember, inCell⟩ := List.mem_flatMap.mp member
  simp only [write, Array.toList_setIfInBounds] at otherMember
  rcases List.mem_or_eq_of_mem_set otherMember with old | rfl
  · exact .inl (List.mem_flatMap.mpr ⟨other, old, inCell⟩)
  · exact .inr inCell

theorem held_split {store : Store} {address : Nat} {old : Cell}
    (found : store.cell? address = some old) :
    ∃ before after, store.held = before ++ old.parts ++ after ∧
      ∀ cell, (store.write address cell).held = before ++ cell.parts ++ after := by
  obtain ⟨before, after, whole, changed⟩ := values_split found
  refine ⟨addresses before, addresses after, ?_, fun cell => ?_⟩
  · simp only [held, whole, addresses_append, Cell.parts]
  · simp only [held, changed, addresses_append, Cell.parts]

theorem Sound.nodup_parts {store : Store} (sound : store.Sound allowed) {address : Nat}
    {cell : Cell} (found : store.cell? address = some cell) : cell.parts.Nodup := by
  obtain ⟨before, after, whole, -⟩ := held_split found
  have single := sound.single
  rw [whole] at single
  exact single.of_append_left.of_append_right

theorem nodup_held_write {store : Store} (heldSingle : store.held.Nodup) {address : Nat}
    {old cell : Cell} (found : store.cell? address = some old) (single : cell.parts.Nodup)
    (parts : ∀ part ∈ cell.parts, part ∈ old.parts ∨ part ∉ store.held) :
    (store.write address cell).held.Nodup := by
  obtain ⟨before, after, held, changed⟩ := held_split found
  rw [held, List.nodup_append, List.nodup_append] at heldSingle
  obtain ⟨⟨beforeSingle, _, beforeOld⟩, afterSingle, beforeAfter⟩ := heldSingle
  -- Neither neighbour holds a new part: old parts are apart from both already.
  have apart : ∀ part ∈ cell.parts, part ∉ before ∧ part ∉ after := by
    intro part member
    rcases parts part member with kept | free
    · exact ⟨fun inBefore => beforeOld part inBefore part kept rfl,
        fun inAfter => beforeAfter part (List.mem_append_right _ kept) part inAfter rfl⟩
    · rw [held] at free
      simp only [List.mem_append, not_or] at free
      exact ⟨free.1.1, free.2⟩
  rw [changed, List.nodup_append, List.nodup_append]
  refine ⟨⟨beforeSingle, single, ?_⟩, afterSingle, ?_⟩
  · rintro part inBefore _ member rfl
    exact (apart part member).1 inBefore
  · rintro part member _ inAfter rfl
    rcases List.mem_append.mp member with inBefore | inCell
    · exact beforeAfter part (List.mem_append_left _ inBefore) part inAfter rfl
    · exact (apart part inCell).2 inAfter

/-- New cells are ranked by age below all old ones, which move up to make room. -/
def makeRoom (rank : Nat → Nat) (before after : Store) (address : Nat) : Nat :=
  if address < before.size then rank address + (after.size - before.size)
  else address - before.size

section

variable {before store : Store} (grown : before.Extends store) {address : Nat}
  (inBounds : address < before.size) {cell : Cell}

include grown inBounds

theorem RankedBy.write {rank : Nat → Nat} (ranked : before.RankedBy rank)
    (backed : before.Backed) (parts : ∀ part ∈ cell.parts,
      part ∈ before.parts address ∨ (before.size ≤ part ∧ part < store.size)) :
    (store.write address cell).RankedBy (makeRoom rank before store) where
  descends owner part member := by
    have sizeLe := grown.size_le
    have old_lt : ∀ {owner part : Nat}, part ∈ before.parts owner → part < before.size :=
      fun member => backed.held_lt (before.parts_subset_held _ member)
    unfold makeRoom
    by_cases same : address = owner
    · subst same
      rw [parts_write_same cell (Nat.lt_of_lt_of_le inBounds sizeLe)] at member
      rcases parts part member with kept | ⟨new, partLt⟩
      · have descends := ranked.descends address part kept
        simp only [inBounds, old_lt kept, if_true]
        omega
      · simp only [inBounds, Nat.not_lt.mpr new, if_true, if_false]
        omega
    · rw [parts_write_other store cell same] at member
      by_cases old : owner < before.size
      · rw [grown.parts_eq old] at member
        have descends := ranked.descends owner part member
        simp only [old, old_lt member, if_true]
        omega
      · obtain ⟨new, smaller⟩ := grown.closed owner (Nat.le_of_not_lt old) part member
        simp only [old, Nat.not_lt.mpr new, if_false]
        omega
  bounded other otherInBounds := by
    have sizeLe := grown.size_le
    rw [size_write] at otherInBounds ⊢
    unfold makeRoom
    split
    · next old =>
        have bounded := ranked.bounded other old
        omega
    · omega

/-- A cell of an older store may be written over in an extension of that store.
What it holds then it either held before or is new and held by nobody. -/
theorem Sound.write (soundBefore : before.Sound allowed) (sound : store.Sound allowed)
    (single : cell.parts.Nodup)
    (parts : ∀ part ∈ cell.parts,
      part ∈ before.parts address ∨ (before.size ≤ part ∧ part ∉ store.held))
    (within : ∀ value ∈ cell.values, value.Within allowed store.size) :
    (store.write address cell).Sound allowed where
  single := by
    obtain ⟨old, found⟩ := exists_cell_of_lt (Nat.lt_of_lt_of_le inBounds grown.size_le)
    have oldParts : before.parts address = old.parts := by
      rw [← parts_of_cell found, grown.parts_eq inBounds]
    refine nodup_held_write sound.single found single fun part member => ?_
    exact (parts part member).imp (fun kept => oldParts ▸ kept) And.right
  ranked := by
    obtain ⟨rank, ranked⟩ := soundBefore.ranked
    refine ⟨_, ranked.write grown inBounds soundBefore.backed fun part member => ?_⟩
    obtain ⟨value, valueMember, refers⟩ := mem_addresses.mp member
    have partLt := (within value valueMember).address_lt refers
    exact (parts part member).imp_right fun new => ⟨new.1, partLt⟩
  within value member := by
    rw [size_write]
    rcases mem_values_write member with old | new
    · exact sound.within value old
    · exact within value new

theorem Extends.evolves_write
    (parts : ∀ part ∈ cell.parts,
      part ∈ before.parts address ∨ (before.size ≤ part ∧ part ∉ store.held)) :
    before.Evolves (store.write address cell) where
  size_le := by
    rw [size_write]
    exact grown.size_le
  old_held other otherOld member := by
    obtain ⟨owner, part⟩ := mem_held member
    by_cases same : address = owner
    · subst same
      rw [parts_write_same cell (Nat.lt_of_lt_of_le inBounds grown.size_le)] at part
      rcases parts other part with kept | ⟨new, _⟩
      · exact before.parts_subset_held address kept
      · omega
    · rw [parts_write_other store cell same] at part
      exact grown.evolves.old_held other otherOld (store.parts_subset_held owner part)

end

end Store

end FlowScript
