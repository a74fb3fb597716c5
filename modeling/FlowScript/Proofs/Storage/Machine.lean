import FlowScript.Proofs.Scope.Stack
import FlowScript.Proofs.Storage.Operation
import FlowScript.Run.Machine

/-!
# Sound machines

The cells held by variables and those held by cells are all different in a sound
machine. Return slots do not hold their values, but they mention them.
-/

set_option autoImplicit false

namespace FlowScript

variable {allowed : Workflow → Prop}

/-! ## Values of the scopes -/

namespace ScopeStack

def values (stack : ScopeStack) : List Value :=
  stack.scopes.flatMap fun scope => scope.bindings.values

def held (stack : ScopeStack) : List Nat := addresses stack.values

theorem values_eq (stack : ScopeStack) :
    stack.values = stack.current.bindings.values ++
      stack.outer.flatMap fun scope => scope.bindings.values := by
  simp [values, scopes]

/-- Variables and results only go away. -/
structure Narrows (before after : ScopeStack) : Prop where
  values : List.Sublist after.values before.values
  results : ∀ value, some value ∈ after.slots → some value ∈ before.slots
  slotted : before.Slotted → after.Slotted

theorem Narrows.refl (stack : ScopeStack) : stack.Narrows stack :=
  ⟨List.Sublist.refl _, fun _ member => member, fun slotted => slotted⟩

theorem narrows_push (stack : ScopeStack) (kind : ScopeKind) : stack.Narrows (stack.push kind) where
  values := by cases kind <;> exact List.Sublist.refl _
  results value member := by
    cases kind with
    | function => simpa [push] using member
    | loop | block => exact member
  slotted slotted scope member := by
    cases kind with
    | function =>
        simp only [push, scopes, Array.size_push, List.mem_cons] at member ⊢
        rcases member with rfl | rest
        · exact Nat.lt_succ_self _
        · exact Nat.lt_succ_of_lt (slotted scope (List.mem_cons.mpr rest))
    | loop | block =>
        rcases List.mem_cons.mp member with rfl | rest
        · exact slotted stack.current List.mem_cons_self
        · exact slotted scope rest

theorem narrows_dropScopes (count : Nat) (stack : ScopeStack) :
    stack.Narrows (stack.dropScopes count) := by
  induction count generalizing stack with
  | zero => exact .refl stack
  | succ count ih =>
      unfold dropScopes
      split
      · exact .refl stack
      · next parent rest outer =>
          have dropped := ih { stack with current := parent, outer := rest }
          constructor
          · refine dropped.values.trans ?_
            simp only [values_eq, outer, List.flatMap_cons]
            exact List.sublist_append_right _ _
          · exact dropped.results
          · intro slotted
            refine dropped.slotted fun scope member => slotted scope ?_
            simp only [scopes, outer] at member ⊢
            exact List.mem_cons_of_mem _ member

theorem narrows_truncate (stack : ScopeStack) (depth : Nat) :
    stack.Narrows (stack.truncate depth) :=
  narrows_dropScopes _ stack

theorem narrows_setFlow (stack : ScopeStack) (flow : FlowSignal) :
    stack.Narrows (stack.setFlow flow) where
  values := List.Sublist.refl _
  results _ member := member
  slotted slotted scope member := by
    rcases List.mem_cons.mp member with rfl | rest
    · exact slotted stack.current List.mem_cons_self
    · exact slotted scope (List.mem_cons_of_mem _ rest)

theorem returnValue?_mem {stack : ScopeStack} {value : Value}
    (stored : stack.returnValue? = some value) : some value ∈ stack.slots :=
  Array.mem_of_getElem? (Option.join_eq_some_iff.mp stored)

theorem narrows_pop (stack : ScopeStack) : stack.Narrows stack.pop.2 := by
  unfold pop
  split
  · exact .refl stack
  · next parent rest outer =>
      constructor
      · simp only [values_eq, outer, List.flatMap_cons]
        split <;> exact List.sublist_append_right _ _
      · exact fun _ member => member
      · intro slotted scope member
        simp only [scopes, List.mem_cons] at member
        rcases member with rfl | inner
        · have parentSlotted := slotted parent (by simp [scopes, outer])
          split <;> exact parentSlotted
        · exact slotted scope (by simp [scopes, outer, inner])

/-! ## Variables -/

theorem lookup?_mem {stack : ScopeStack} {name : String} {value : Value}
    (found : stack.lookup? name = some value) : value ∈ stack.values := by
  obtain ⟨inner, scope, outer, split, -, present⟩ := lookupIn?_split found
  have member : scope ∈ stack.scopes := split ▸ List.mem_append_cons_self
  exact List.mem_flatMap.mpr ⟨scope, member, Dictionary.get?_mem_values present⟩

theorem rebindIn?_values {name : String} {value : Value} {scopes changed : List Scope}
    (rebound : rebindIn? name value scopes = some changed) :
    List.Subperm (changed.flatMap fun scope => scope.bindings.values)
      (value :: scopes.flatMap fun scope => scope.bindings.values) := by
  obtain ⟨inner, scope, outer, current, rfl, rfl, -⟩ := rebindIn?_split rebound
  simp only [List.flatMap_append, List.flatMap_cons]
  have inserted := (List.subperm_append_right
    (outer.flatMap fun scope => scope.bindings.values)).mpr
      (Dictionary.insert_values_subperm scope.bindings name value)
  exact ((List.subperm_append_left _).mpr inserted).trans List.perm_middle.subperm

theorem rebindIn?_same {name : String} {value : Value} {scopes : List Scope}
    (found : lookupIn? name scopes = some value) : rebindIn? name value scopes = some scopes := by
  obtain ⟨inner, scope, outer, rfl, others, present⟩ := lookupIn?_split found
  rw [rebindIn?_nearest others present, Dictionary.insert_of_get?_eq_some present]

end ScopeStack

/-! ## Soundness -/

namespace Machine

def held (machine : Machine) : List Nat := machine.scopes.held ++ machine.store.held

def size (machine : Machine) : Nat := machine.store.size

/-- The store is sound, no two places hold one cell, and all values of variables
and return slots are in bounds. -/
structure Sound (allowed : Workflow → Prop) (machine : Machine) : Prop where
  store : machine.store.Sound allowed
  single : machine.held.Nodup
  bindings : ∀ value ∈ machine.scopes.values, value.Within allowed machine.size
  results : ∀ value, some value ∈ machine.scopes.slots → value.Within allowed machine.size
  slotted : machine.scopes.Slotted

/-- A cell that nobody held before is held by nobody afterwards, unless it is
new. -/
structure Keeps (before after : Machine) : Prop where
  size_le : before.size ≤ after.size
  old_held : ∀ address < before.size, address ∈ after.held → address ∈ before.held

theorem Keeps.refl (machine : Machine) : machine.Keeps machine :=
  ⟨Nat.le_refl _, fun _ _ member => member⟩

theorem Keeps.trans {first second third : Machine} (left : first.Keeps second)
    (right : second.Keeps third) : first.Keeps third where
  size_le := Nat.le_trans left.size_le right.size_le
  old_held address inBounds member :=
    left.old_held address inBounds
      (right.old_held address (Nat.lt_of_lt_of_le inBounds left.size_le) member)

theorem Sound.scopes_held_lt {machine : Machine} (sound : machine.Sound allowed) {address : Nat}
    (member : address ∈ machine.scopes.held) : address < machine.size := by
  obtain ⟨value, valueMember, refers⟩ := mem_addresses.mp member
  exact (sound.bindings value valueMember).address_lt refers

theorem Sound.congr {machine other : Machine} (sound : machine.Sound allowed)
    (scopes : other.scopes = machine.scopes) (store : other.store = machine.store) :
    other.Sound allowed := by
  obtain ⟨storeSound, single, bindings, results, slotted⟩ := sound
  refine ⟨by rwa [store], ?_, ?_, ?_, by rwa [scopes]⟩
  · simpa only [held, scopes, store] using single
  · simpa only [size, scopes, store] using bindings
  · simpa only [size, scopes, store] using results

theorem Keeps.congr {base machine other : Machine} (kept : base.Keeps machine)
    (scopes : other.scopes = machine.scopes) (store : other.store = machine.store) :
    base.Keeps other where
  size_le := by simpa only [size, store] using kept.size_le
  old_held := by simpa only [held, scopes, store] using kept.old_held

/-! ## Changes of the store -/

theorem Sound.withStore {machine : Machine} (sound : machine.Sound allowed) {store : Store}
    (advances : machine.store.Advances allowed store) :
    Sound allowed { machine with store } where
  store := advances.sound
  single := by
    obtain ⟨scopesSingle, -, apart⟩ := List.nodup_append.mp sound.single
    refine List.nodup_append.mpr ⟨scopesSingle, advances.sound.single, ?_⟩
    intro address inScopes other inStore same
    subst same
    have old := sound.scopes_held_lt inScopes
    exact apart address inScopes address (advances.evolves.old_held address old inStore) rfl
  bindings value member := (sound.bindings value member).mono advances.evolves.size_le
  results value member := (sound.results value member).mono advances.evolves.size_le
  slotted := sound.slotted

theorem Keeps.withStore {base machine : Machine} (kept : base.Keeps machine) {store : Store}
    (evolves : machine.store.Evolves store) : base.Keeps { machine with store } where
  size_le := Nat.le_trans kept.size_le evolves.size_le
  old_held address inBounds member := by
    refine kept.old_held address inBounds ?_
    rcases List.mem_append.mp member with inScopes | inStore
    · exact List.mem_append_left _ inScopes
    · exact List.mem_append_right _
        (evolves.old_held address (Nat.lt_of_lt_of_le inBounds kept.size_le) inStore)

/-- What is loose in the store is loose in the machine: variables hold older
cells only. -/
theorem Sound.loose_store {machine final : Machine} (sound : machine.Sound allowed)
    (scopes : final.scopes = machine.scopes) {base : Nat} (le : base ≤ machine.size)
    {values : List Value} (loose : Loose machine.size final.store.held values) :
    Loose base final.held values where
  single := loose.single
  fresh address member := Nat.le_trans le (loose.fresh address member)
  free address member isHeld := by
    rcases List.mem_append.mp isHeld with inScopes | inStore
    · rw [scopes] at inScopes
      exact Nat.lt_irrefl _
        (Nat.lt_of_lt_of_le (sound.scopes_held_lt inScopes) (loose.fresh address member))
    · exact loose.free address member inStore

/-! ## Changes of the scopes -/

theorem Sound.narrow {machine : Machine} (sound : machine.Sound allowed) {scopes : ScopeStack}
    (narrows : machine.scopes.Narrows scopes) : Sound allowed { machine with scopes } where
  store := sound.store
  single := (List.Sublist.append_right (narrows.values.filterMap _) _).nodup sound.single
  bindings value member := sound.bindings value (narrows.values.subset member)
  results value member := sound.results value (narrows.results value member)
  slotted := narrows.slotted sound.slotted

theorem Keeps.narrow {base machine : Machine} (kept : base.Keeps machine) {scopes : ScopeStack}
    (narrows : machine.scopes.Narrows scopes) : base.Keeps { machine with scopes } where
  size_le := kept.size_le
  old_held address inBounds member := by
    refine kept.old_held address inBounds ?_
    rcases List.mem_append.mp member with inScopes | inStore
    · exact List.mem_append_left _ ((narrows.values.filterMap _).subset inScopes)
    · exact List.mem_append_right _ inStore

theorem Sound.setReturn {machine : Machine} (sound : machine.Sound allowed) {value : Value}
    (within : value.Within allowed machine.size) :
    Sound allowed { machine with scopes := machine.scopes.setReturn value } where
  store := sound.store
  single := sound.single
  bindings := sound.bindings
  results other member := by
    rcases Array.mem_or_eq_of_mem_setIfInBounds member with old | new
    · exact sound.results other old
    · cases new
      exact within
  slotted scope member := by
    simp only [ScopeStack.setReturn, Array.size_setIfInBounds]
    rcases List.mem_cons.mp member with rfl | rest
    · exact sound.slotted machine.scopes.current List.mem_cons_self
    · exact sound.slotted scope (List.mem_cons_of_mem _ rest)

/-- A variable takes a value that nobody holds. -/
theorem Sound.declare {base machine : Machine} (sound : machine.Sound allowed)
    (kept : base.Keeps machine) {name : String} {value : Value} {scopes : ScopeStack}
    (within : value.Within allowed machine.size)
    (loose : Loose base.size machine.held [value])
    (declared : machine.scopes.declare name value = .ok scopes) :
    Sound allowed { machine with scopes } ∧ base.Keeps { machine with scopes } := by
  obtain ⟨missing, rfl⟩ := ScopeStack.declare_eq_ok declared
  have values : ScopeStack.values { machine.scopes with
      current := { machine.scopes.current with
        bindings := machine.scopes.current.bindings.insert name value } } =
      machine.scopes.current.bindings.values ++ value ::
        machine.scopes.outer.flatMap fun scope => scope.bindings.values := by
    simp [ScopeStack.values_eq, Dictionary.insert_values_of_not_contains value missing]
  have permuted : List.Perm (addresses (machine.scopes.current.bindings.values ++ value ::
      machine.scopes.outer.flatMap fun scope => scope.bindings.values) ++ machine.store.held)
      (addresses [value] ++ machine.held) := by
    rw [held, ScopeStack.held, ← List.append_assoc, ← addresses_append]
    refine List.Perm.append_right _ ?_
    rw [ScopeStack.values_eq]
    exact List.perm_middle.filterMap _
  refine ⟨⟨sound.store, ?_, ?_, sound.results, ?_⟩, kept.size_le, ?_⟩
  · simp only [held, ScopeStack.held, values]
    refine permuted.nodup_iff.mpr (List.nodup_append.mpr ⟨loose.single, sound.single, ?_⟩)
    intro address new other isHeld same
    subst same
    exact loose.free address new isHeld
  · intro other member
    rw [values] at member
    have cases : other = value ∨ other ∈ machine.scopes.values := by
      rw [ScopeStack.values_eq]
      simpa [or_left_comm] using member
    rcases cases with rfl | old
    · exact within
    · exact sound.bindings other old
  · intro scope member
    rcases List.mem_cons.mp member with rfl | rest
    · exact sound.slotted machine.scopes.current List.mem_cons_self
    · exact sound.slotted scope (List.mem_cons_of_mem _ rest)
  · intro address inBounds member
    simp only [held, ScopeStack.held, values] at member
    rcases List.mem_append.mp (permuted.subset member) with new | old
    · have fresh := loose.fresh address new
      omega
    · exact kept.old_held address inBounds old

/-- A variable keeps its cell or takes a value without one. -/
theorem Sound.rebind {base machine : Machine} (sound : machine.Sound allowed)
    (kept : base.Keeps machine) {name : String} {current value : Value} {scopes : ScopeStack}
    {before : Store} (found : machine.scopes.lookup? name = some current)
    (assigned : Value.Assigned allowed before current value machine.store)
    (rebound : machine.scopes.rebind name value = .ok scopes) :
    Sound allowed { machine with scopes } ∧ base.Keeps { machine with scopes } := by
  obtain ⟨inner, slots⟩ := ScopeStack.rebind_eq_ok rebound
  have slotted : scopes.Slotted := by
    intro scope member
    have outline : scope.outline ∈ machine.scopes.scopes.map Scope.outline := by
      rw [← ScopeStack.rebindIn?_outline inner]
      exact List.mem_map_of_mem member
    obtain ⟨old, oldMember, same⟩ := List.mem_map.mp outline
    have oldSlot : old.slot = scope.slot := congrArg Scope.Outline.slot same
    rw [slots, ← oldSlot]
    exact sound.slotted old oldMember
  have contained := ScopeStack.rebindIn?_values inner
  -- Either nothing changes, or the new value adds no address.
  have addressesContained : List.Subperm scopes.held machine.scopes.held := by
    rcases assigned.origin with rfl | bare
    · have unchanged := ScopeStack.rebindIn?_same found
      rw [inner] at unchanged
      rw [ScopeStack.held, ScopeStack.values, Option.some.inj unchanged]
      exact List.Subperm.refl _
    · have smaller := addresses_subperm contained
      rw [addresses_cons, bare] at smaller
      exact smaller
  refine ⟨⟨sound.store, ?_, ?_, ?_, slotted⟩, kept.size_le, ?_⟩
  · exact nodup_of_subperm ((List.subperm_append_right _).mpr addressesContained) sound.single
  · intro other member
    rcases List.mem_cons.mp (contained.subset member) with rfl | old
    · exact assigned.within
    · exact sound.bindings other old
  · intro other member
    exact sound.results other (slots ▸ member)
  · intro address inBounds member
    refine kept.old_held address inBounds ?_
    rcases List.mem_append.mp member with inScopes | inStore
    · exact List.mem_append_left _ (addressesContained.subset inScopes)
    · exact List.mem_append_right _ inStore

end Machine

/-- Values in bounds that no place holds, with cells made since a base. -/
structure InHand (allowed : Workflow → Prop) (base : Nat) (values : List Value)
    (machine : Machine) : Prop where
  within : ∀ value ∈ values, value.Within allowed machine.size
  loose : Loose base machine.held values

namespace InHand

theorem none {base : Nat} {machine : Machine} : InHand allowed base [] machine :=
  ⟨by simp, .nil⟩

theorem keep {base : Nat} {values : List Value} {before after : Machine}
    (inHand : InHand allowed base values before) (kept : before.Keeps after) :
    InHand allowed base values after where
  within value member := (inHand.within value member).mono kept.size_le
  loose := by
    refine ⟨inHand.loose.single, inHand.loose.fresh, fun address member isHeld => ?_⟩
    obtain ⟨value, valueMember, refers⟩ := mem_addresses.mp member
    have inBounds := (inHand.within value valueMember).address_lt refers
    exact inHand.loose.free address member (kept.old_held address inBounds isHeld)

theorem append {base : Nat} {left right : List Value} {before after : Machine}
    (earlier : InHand allowed base left before) (kept : before.Keeps after)
    (later : InHand allowed before.size right after) (le : base ≤ before.size) :
    InHand allowed base (left ++ right) after where
  within value member := by
    rcases List.mem_append.mp member with old | new
    · exact (earlier.within value old).mono kept.size_le
    · exact later.within value new
  loose := (earlier.keep kept).loose.append later.loose le earlier.within

theorem of_subperm {base : Nat} {left right : List Value} {machine : Machine}
    (contained : List.Subperm left right) (inHand : InHand allowed base right machine) :
    InHand allowed base left machine :=
  ⟨fun value member => inHand.within value (contained.subset member),
    inHand.loose.of_subperm contained⟩

end InHand

theorem Machine.Sound.allocate {base machine : Machine} (sound : machine.Sound allowed)
    (kept : base.Keeps machine) {cell : Cell}
    (inHand : InHand allowed base.size cell.values machine) :
    Machine.Sound allowed { machine with store := machine.store.push cell } ∧
      base.Keeps { machine with store := machine.store.push cell } := by
  have storeLoose : Loose base.size machine.store.held cell.values :=
    ⟨inHand.loose.single, inHand.loose.fresh, fun address member isHeld =>
      inHand.loose.free address member (List.mem_append_right _ isHeld)⟩
  have storeSound := sound.store.push storeLoose inHand.within
  have grows : machine.size ≤ (machine.store.push cell).size := by
    rw [Store.size_push]
    exact Nat.le_succ _
  refine ⟨⟨storeSound, ?_, ?_, ?_, sound.slotted⟩, Nat.le_trans kept.size_le grows, ?_⟩
  · obtain ⟨scopesSingle, -, apart⟩ := List.nodup_append.mp sound.single
    refine List.nodup_append.mpr ⟨scopesSingle, storeSound.single, ?_⟩
    intro address inScopes other inStore same
    subst same
    rw [Store.held_push] at inStore
    rcases List.mem_append.mp inStore with old | new
    · exact apart address inScopes address old rfl
    · exact inHand.loose.free address new (List.mem_append_left _ inScopes)
  · exact fun value member => (sound.bindings value member).mono grows
  · exact fun value member => (sound.results value member).mono grows
  · intro address inBounds member
    simp only [Machine.held, Store.held_push] at member
    rcases List.mem_append.mp member with inScopes | inStore
    · exact kept.old_held address inBounds (List.mem_append_left _ inScopes)
    · rcases List.mem_append.mp inStore with old | new
      · exact kept.old_held address inBounds (List.mem_append_right _ old)
      · have fresh := inHand.loose.fresh address new
        omega

end FlowScript
