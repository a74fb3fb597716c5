import FlowScript.Proofs.Storage.Reach

/-!
# Storage is a forest

The cells that variables lead to have one place each, and none of them contains
itself. Only variables, array slots and dictionary entries are places: a member
function and a pending call mention values without holding them.
-/

set_option autoImplicit false

namespace FlowScript

/-- Where a value can be held. Scopes are counted from the innermost one, and the
entries of scopes and dictionaries in the order of their insertion. -/
inductive Place where
  | binding (scope index : Nat)
  | slot (array index : Nat)
  | entry (dictionary index : Nat)
  deriving DecidableEq, Repr

namespace Place

def value? (machine : Machine) : Place → Option Value
  | .binding scope index =>
      (machine.scopes.scopes[scope]?).bind fun scope => scope.bindings.values[index]?
  | .slot array index =>
      match machine.store.cell? array with
      | some (.array items) => items[index]?
      | _ => none
  | .entry dictionary index =>
      match machine.store.cell? dictionary with
      | some (.dictionary entries) => entries.values[index]?
      | _ => none

def owner? : Place → Option Nat
  | .binding _ _ => none
  | .slot array _ => some array
  | .entry dictionary _ => some dictionary

def Holds (machine : Machine) (place : Place) (address : Nat) : Prop :=
  (place.value? machine).bind Value.address? = some address

instance (machine : Machine) (place : Place) (address : Nat) :
    Decidable (place.Holds machine address) :=
  inferInstanceAs (Decidable (_ = _))

end Place

namespace Machine

def Contains (machine : Machine) (owner part : Nat) : Prop :=
  ∃ place : Place, place.owner? = some owner ∧ place.Holds machine part

inductive Leads (machine : Machine) : Nat → Prop where
  | binding {scope index address : Nat} :
      (Place.binding scope index).Holds machine address → Leads machine address
  | part {owner part : Nat} : Leads machine owner → machine.Contains owner part →
      Leads machine part

end Machine

/-! ## Places and positions -/

theorem mem_addresses_of_position {values : List Value} {index address : Nat}
    (found : (values[index]?).bind Value.address? = some address) :
    address ∈ addresses values := by
  obtain ⟨value, atIndex, refers⟩ := Option.bind_eq_some_iff.mp found
  exact mem_addresses.mpr ⟨value, List.mem_of_getElem? atIndex, refers⟩

theorem position_unique {values : List Value} (single : (addresses values).Nodup)
    {left right address : Nat} (atLeft : (values[left]?).bind Value.address? = some address)
    (atRight : (values[right]?).bind Value.address? = some address) : left = right := by
  induction values generalizing left right with
  | nil => simp at atLeft
  | cons value rest ih =>
      rw [addresses_cons, List.nodup_append] at single
      obtain ⟨-, restSingle, apart⟩ := single
      cases left with
      | zero =>
          cases right with
          | zero => rfl
          | succ right =>
              have head : value.address? = some address := atLeft
              exact absurd rfl
                (apart address (by simp [head]) address (mem_addresses_of_position atRight))
      | succ left =>
          cases right with
          | zero =>
              have head : value.address? = some address := atRight
              exact absurd rfl
                (apart address (by simp [head]) address (mem_addresses_of_position atLeft))
          | succ right => rw [ih restSingle atLeft atRight]

theorem row_unique {α : Type} {rows : List α} {values : α → List Value}
    (single : (addresses (rows.flatMap values)).Nodup) {left right address : Nat} {first second : α}
    (atLeft : rows[left]? = some first) (atRight : rows[right]? = some second)
    (inFirst : address ∈ addresses (values first))
    (inSecond : address ∈ addresses (values second)) : left = right := by
  induction rows generalizing left right with
  | nil => simp at atLeft
  | cons row rest ih =>
      have inRest : ∀ (index : Nat) (found : α), rest[index]? = some found →
          address ∈ addresses (values found) → address ∈ addresses (rest.flatMap values) := by
        intro index found atIndex inFound
        obtain ⟨value, member, refers⟩ := mem_addresses.mp inFound
        exact mem_addresses.mpr
          ⟨value, List.mem_flatMap.mpr ⟨found, List.mem_of_getElem? atIndex, member⟩, refers⟩
      rw [List.flatMap_cons, addresses_append, List.nodup_append] at single
      obtain ⟨-, restSingle, apart⟩ := single
      cases left with
      | zero =>
          cases right with
          | zero => rfl
          | succ right =>
              cases Option.some.inj atLeft
              exact absurd rfl
                (apart address inFirst address (inRest right second atRight inSecond))
      | succ left =>
          cases right with
          | zero =>
              cases Option.some.inj atRight
              exact absurd rfl (apart address inSecond address (inRest left first atLeft inFirst))
          | succ right => rw [ih restSingle atLeft atRight]

/-- Among rows of values, a cell is mentioned at one position of one row at most. -/
theorem row_position_unique {α : Type} {rows : List α} {values : α → List Value}
    (single : (addresses (rows.flatMap values)).Nodup)
    {left right leftIndex rightIndex address : Nat} {first second : α}
    (atLeft : rows[left]? = some first) (atRight : rows[right]? = some second)
    (inFirst : ((values first)[leftIndex]?).bind Value.address? = some address)
    (inSecond : ((values second)[rightIndex]?).bind Value.address? = some address) :
    first = second ∧ left = right ∧ leftIndex = rightIndex := by
  cases row_unique single atLeft atRight (mem_addresses_of_position inFirst)
    (mem_addresses_of_position inSecond)
  cases Option.some.inj (atLeft.symm.trans atRight)
  have rowSingle : (addresses (values first)).Nodup := by
    refine nodup_of_subperm (addresses_subperm (List.Sublist.subperm ?_)) single
    rw [List.flatMap_def]
    exact List.sublist_flatten_of_mem (List.mem_map_of_mem (List.mem_of_getElem? atLeft))
  exact ⟨rfl, rfl, position_unique rowSingle inFirst inSecond⟩

def Cell.place (owner index : Nat) : Cell → Place
  | .dictionary _ => .entry owner index
  | _ => .slot owner index

namespace Place

variable {machine : Machine} {place : Place} {address : Nat}

theorem Holds.inside {owner : Nat} (holds : place.Holds machine address)
    (owned : place.owner? = some owner) :
    ∃ cell index, machine.store.cell? owner = some cell ∧
      (cell.values[index]?).bind Value.address? = some address ∧
      place = cell.place owner index := by
  cases place with
  | binding scope index => cases owned
  | slot array index =>
      cases Option.some.inj owned
      unfold Holds value? at holds
      dsimp only at holds
      split at holds
      · next items found => exact ⟨.array items, index, found, holds, rfl⟩
      · cases holds
  | entry dictionary index =>
      cases Option.some.inj owned
      unfold Holds value? at holds
      dsimp only at holds
      split at holds
      · next entries found => exact ⟨.dictionary entries, index, found, holds, rfl⟩
      · cases holds

theorem Holds.mem_parts {owner : Nat} (holds : place.Holds machine address)
    (owned : place.owner? = some owner) : address ∈ machine.store.parts owner := by
  obtain ⟨cell, index, found, position, -⟩ := holds.inside owned
  rw [Store.parts_of_cell found]
  exact mem_addresses_of_position position

/-- A place that is not inside a cell is a variable of some scope. -/
theorem Holds.outside (holds : place.Holds machine address) (owned : place.owner? = none) :
    ∃ row scope index, machine.scopes.scopes[row]? = some scope ∧
      (scope.bindings.values[index]?).bind Value.address? = some address ∧
      place = .binding row index := by
  cases place with
  | binding row index =>
      simp only [Holds, value?, Option.bind_assoc] at holds
      obtain ⟨scope, atRow, position⟩ := Option.bind_eq_some_iff.mp holds
      exact ⟨row, scope, index, atRow, position, rfl⟩
  | slot | entry => cases owned

theorem Holds.mem_scopes (holds : place.Holds machine address) (owned : place.owner? = none) :
    address ∈ machine.scopes.held := by
  obtain ⟨row, scope, index, atRow, position, -⟩ := holds.outside owned
  obtain ⟨value, member, refers⟩ := mem_addresses.mp (mem_addresses_of_position position)
  exact mem_addresses.mpr
    ⟨value, List.mem_flatMap.mpr ⟨scope, List.mem_of_getElem? atRow, member⟩, refers⟩

end Place

/-! ## One place for every cell -/

theorem Machine.Sound.holds_unique {allowed : Workflow → Prop} {machine : Machine}
    (sound : machine.Sound allowed) {left right : Place} {address : Nat}
    (leftHolds : left.Holds machine address) (rightHolds : right.Holds machine address) :
    left = right := by
  obtain ⟨scopesSingle, storeSingle, apart⟩ := List.nodup_append.mp sound.single
  cases leftOwned : left.owner? with
  | none =>
      have leftScopes := leftHolds.mem_scopes leftOwned
      cases rightOwned : right.owner? with
      | none =>
          obtain ⟨leftRow, leftScope, leftIndex, atLeft, leftPosition, rfl⟩ :=
            leftHolds.outside leftOwned
          obtain ⟨rightRow, rightScope, rightIndex, atRight, rightPosition, rfl⟩ :=
            rightHolds.outside rightOwned
          obtain ⟨-, rfl, rfl⟩ :=
            row_position_unique scopesSingle atLeft atRight leftPosition rightPosition
          rfl
      | some owner =>
          have inStore := machine.store.parts_subset_held owner (rightHolds.mem_parts rightOwned)
          exact absurd rfl (apart address leftScopes address inStore)
  | some owner =>
      have leftStore := machine.store.parts_subset_held owner (leftHolds.mem_parts leftOwned)
      cases rightOwned : right.owner? with
      | none =>
          exact absurd rfl (apart address (rightHolds.mem_scopes rightOwned) address leftStore)
      | some other =>
          obtain ⟨leftCell, leftIndex, atLeft, leftPosition, rfl⟩ := leftHolds.inside leftOwned
          obtain ⟨rightCell, rightIndex, atRight, rightPosition, rfl⟩ :=
            rightHolds.inside rightOwned
          have inRow : ∀ {row : Nat} {cell : Cell}, machine.store.cell? row = some cell →
              machine.store.cells.toList[row]? = some cell :=
            fun found => by simpa [Store.cell?] using found
          obtain ⟨rfl, rfl, rfl⟩ := row_position_unique storeSingle (inRow atLeft)
            (inRow atRight) leftPosition rightPosition
          rfl

theorem Machine.Leads.held {machine : Machine} {address : Nat} (leads : machine.Leads address) :
    ∃ place : Place, place.Holds machine address := by
  cases leads with
  | binding holds => exact ⟨_, holds⟩
  | part _ contains =>
      obtain ⟨place, -, holds⟩ := contains
      exact ⟨place, holds⟩

theorem Machine.Contains.holds {machine : Machine} {owner part : Nat}
    (contains : machine.Contains owner part) : machine.store.Holds owner part := by
  obtain ⟨place, owned, holds⟩ := contains
  exact holds.mem_parts owned

theorem Store.RankedBy.contains_lt {machine : Machine} {rank : Nat → Nat}
    (ranked : machine.store.RankedBy rank) {owner part : Nat}
    (contains : Relation.TransGen machine.Contains owner part) : rank part < rank owner :=
  ranked.lt_of_transGen (Relation.TransGen.mono (fun _ _ => Machine.Contains.holds) _ _ contains)

/-- In every machine that a run reaches, each cell that variables lead to is held
by exactly one place, and it does not contain itself at any depth. -/
theorem reachable_storage_forest (run : Run) (machine : Machine) (reached : run.Reaches machine)
    (address : Nat) (leads : machine.Leads address) :
    (∃! place : Place, place.Holds machine address) ∧
      ¬ Relation.TransGen machine.Contains address address := by
  have sound := reached.sound
  constructor
  · obtain ⟨place, holds⟩ := leads.held
    exact ⟨place, holds, fun other otherHolds => sound.holds_unique otherHolds holds⟩
  · intro contains
    obtain ⟨rank, ranked⟩ := sound.store.ranked
    exact Nat.lt_irrefl _ (ranked.contains_lt contains)

/-- Puts a dictionary into itself: `d : dictionary = {inner: {}}` and then
`d.inner = d`. -/
def nestedAssignment : Run :=
  let name (text : String) : Identifier := ⟨text, .origin⟩
  .ofStatements
    [.declaration (name "d") (name "dictionary")
      (some (.dictionary [⟨name "inner", .dictionary [] .origin, .origin⟩] .origin)) .origin,
    .assignment ⟨name "d", [name "inner"], .origin⟩ (.path ⟨name "d", [], .origin⟩) .origin] 5

/-- The innermost dictionary is a copy with a place of its own. -/
theorem nestedAssignment_storage_forest :
    (∃! place : Place, place.Holds nestedAssignment.final 6) ∧
      ¬ Relation.TransGen nestedAssignment.final.Contains 6 6 := by
  have outer : (Place.binding 0 5).Holds nestedAssignment.final 5 := by decide +kernel
  have middle : (Place.entry 5 0).Holds nestedAssignment.final 4 := by decide +kernel
  have inner : (Place.entry 4 0).Holds nestedAssignment.final 6 := by decide +kernel
  exact reachable_storage_forest nestedAssignment _ nestedAssignment.reaches_final 6
    (.part (.part (.binding outer) ⟨_, rfl, middle⟩) ⟨_, rfl, inner⟩)

end FlowScript
