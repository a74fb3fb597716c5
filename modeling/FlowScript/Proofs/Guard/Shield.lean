import FlowScript.Proofs.Guard.Evaluation
import FlowScript.Proofs.Storage.Contents
import Mathlib.Logic.Relation

/-!
# Cells that nothing leads to

A cell can be written by a running computation only if something leads to it: a variable,
the result of a function, or a function that was looked up on a value. All other cells
keep what they hold, however long the computation runs.
-/

set_option autoImplicit false

namespace FlowScript

/-- The cells that can be written through a value without reading another cell. The
arguments of a pending call are only copied, but functions among them can be called. -/
inductive Value.Mentions : Value → Nat → Prop where
  | own {kind : StoredKind} {address : Nat} : Mentions (.stored kind address) address
  | receiver {function : MemberFunction} {receiver : Value} {address : Nat} :
      Mentions receiver address → Mentions (.member function receiver) address
  | argument {tag : Nat} {definition : Workflow} {arguments : CallArguments} {location : Span}
      {argument : CallArgument} {address : Nat} :
      argument ∈ arguments.items → argument.value.address? = none →
      Mentions argument.value address →
      Mentions (.invocation tag definition arguments location) address

theorem Value.Within.mentions_lt {allowed : Workflow → Prop} {bound address : Nat} {value : Value}
    (within : value.Within allowed bound) (mentions : value.Mentions address) :
    address < bound := by
  induction mentions with
  | own =>
      cases within with
      | stored inBounds => exact inBounds
  | receiver _ ih =>
      cases within with
      | member inside => exact ih inside
  | argument member _ _ ih =>
      cases within with
      | invocation _ inside => exact ih (inside _ member)

/-- Something leads to the cell: a variable, the result of a function, a function looked
up on a value, or another such cell. Cells below a bound count too, and so do functions
among some values in hand. -/
inductive Machine.Exposes (machine : Machine) (bound : Nat) (hand : List Value) : Nat → Prop where
  | old {address : Nat} : address < bound → Exposes machine bound hand address
  | named {value : Value} {address : Nat} :
      value ∈ machine.scopes.values → value.Mentions address → Exposes machine bound hand address
  | result {value : Value} {address : Nat} :
      some value ∈ machine.scopes.slots → value.Mentions address →
      Exposes machine bound hand address
  | receiver {value : Value} {address : Nat} :
      value ∈ machine.store.values ∨ value ∈ hand → value.address? = none →
      value.Mentions address → Exposes machine bound hand address
  | part {owner part : Nat} : Exposes machine bound hand owner →
      part ∈ machine.store.parts owner → Exposes machine bound hand part

namespace Machine

variable {allowed : Workflow → Prop} {machine : Machine} {bound : Nat} {hand : List Value}

/-- Nothing leads to the cell. -/
structure Hides (machine : Machine) (bound : Nat) (hand : List Value) (address : Nat) : Prop where
  inBounds : address < machine.size
  apart : ¬ machine.Exposes bound hand address

theorem Exposes.of_not_hides {address : Nat} (shown : ¬ machine.Hides bound hand address)
    (inBounds : address < machine.size) : machine.Exposes bound hand address := by
  by_contra apart
  exact shown ⟨inBounds, apart⟩

/-- Nothing leads to a cell that no value mentions. -/
theorem Exposes.lt {limit address : Nat} (below : bound ≤ limit)
    (handWithin : ∀ value ∈ hand, value.address? = none → value.Within allowed limit)
    (bindings : ∀ value ∈ machine.scopes.values, value.Within allowed limit)
    (results : ∀ value, some value ∈ machine.scopes.slots → value.Within allowed limit)
    (cells : ∀ value ∈ machine.store.values, value.Within allowed limit)
    (exposed : machine.Exposes bound hand address) : address < limit := by
  induction exposed with
  | old older => exact Nat.lt_of_lt_of_le older below
  | named member mentions => exact (bindings _ member).mentions_lt mentions
  | result member mentions => exact (results _ member).mentions_lt mentions
  | receiver member bare mentions =>
      rcases member with stored | inHand
      · exact (cells _ stored).mentions_lt mentions
      · exact (handWithin _ inHand bare).mentions_lt mentions
  | part _ member _ =>
      obtain ⟨value, inside, refers⟩ :=
        mem_addresses.mp (machine.store.parts_subset_held _ member)
      exact (cells value inside).address_lt refers

/-- The value leads to no hidden cell. -/
def Clears (machine : Machine) (bound : Nat) (hand : List Value) (value : Value) : Prop :=
  ∀ address, value.Mentions address → ¬ machine.Hides bound hand address

end Machine

/-- Hidden cells hold what they held on the machine, and no others lead to them. -/
structure Store.Shields (machine : Machine) (bound : Nat) (hand : List Value) (store : Store) :
    Prop where
  size_le : machine.size ≤ store.size
  hidden : ∀ address, machine.Hides bound hand address →
    store.cell? address = machine.store.cell? address
  shown : ∀ address, ¬ machine.Hides bound hand address → ∀ cell,
    store.cell? address = some cell → ∀ value ∈ cell.values, machine.Clears bound hand value

namespace Store.Shields

variable {machine : Machine} {bound : Nat} {hand : List Value} {store : Store} {cell : Cell}

theorem push (shields : store.Shields machine bound hand)
    (inside : ∀ value ∈ cell.values, machine.Clears bound hand value) :
    (store.push cell).Shields machine bound hand where
  size_le := by
    rw [Store.size_push]
    exact Nat.le_succ_of_le shields.size_le
  hidden address hides := by
    rw [Store.cell?_push_old (Nat.lt_of_lt_of_le hides.inBounds shields.size_le)]
    exact shields.hidden address hides
  shown address shown other found := by
    rcases Nat.lt_trichotomy address store.size with old | rfl | outside
    · rw [Store.cell?_push_old old] at found
      exact shields.shown address shown other found
    · cases (store.cell?_push_new cell).symm.trans found
      exact inside
    · have missing : (store.push cell).cell? address = none :=
        Array.getElem?_eq_none (by
          have size := store.size_push cell
          change (store.push cell).size ≤ address
          omega)
      cases missing.symm.trans found

theorem clears_new (shields : store.Shields machine bound hand) (kind : StoredKind) :
    machine.Clears bound hand (.stored kind store.size) := by
  intro address mentions hides
  cases mentions
  exact absurd hides.inBounds (Nat.not_lt.mpr shields.size_le)

theorem write (shields : store.Shields machine bound hand) {kind : StoredKind} {address : Nat}
    (target : machine.Clears bound hand (.stored kind address))
    (inside : ∀ value ∈ cell.values, machine.Clears bound hand value) :
    (store.write address cell).Shields machine bound hand where
  size_le := by
    rw [Store.size_write]
    exact shields.size_le
  hidden other hides := by
    have apart : address ≠ other := by
      rintro rfl
      exact target _ .own hides
    rw [Store.cell?_write_other store cell apart]
    exact shields.hidden other hides
  shown other shown found atOther := by
    by_cases same : address = other
    · subst same
      by_cases inBounds : address < store.size
      · cases (Store.cell?_write_same cell inBounds).symm.trans atOther
        exact inside
      · have missing : (store.write address cell).cell? address = none :=
          Array.getElem?_eq_none (by
            change (store.write address cell).size ≤ address
            rw [Store.size_write]
            omega)
        cases missing.symm.trans atOther
    · rw [Store.cell?_write_other store cell same] at atOther
      exact shields.shown other shown found atOther

end Store.Shields

/-! ## The guard of hidden cells -/

section

variable (machine : Machine) (bound : Nat) (hand : List Value)

def shieldedStores : StoreGuard where
  holds := Store.Shields machine bound hand
  good := machine.Clears bound hand
  void := nofun
  error _ _ _ := nofun
  member_iff :=
    ⟨fun clears address mentions => clears address (.receiver mentions),
      fun clears address mentions => by
        cases mentions with
        | receiver inner => exact clears address inner⟩
  push shields inside := ⟨shields.push inside, shields.clears_new⟩
  tag _ shields := ⟨shields.size_le, shields.hidden, shields.shown⟩
  write shields target inside := shields.write target inside
  cell shields target found := shields.shown _ (target _ .own) _ found

variable {machine bound hand}

/-- What a hidden cell holds may be hidden too, but no functions in it lead to such
cells. -/
theorem clears_bare {owner : Nat} {cell : Cell} (found : machine.store.cell? owner = some cell)
    {value : Value} (member : value ∈ cell.values) (bare : value.address? = none) :
    machine.Clears bound hand value :=
  fun _ mentions hides =>
    hides.apart (.receiver (.inl (Store.values_of_cell found member)) bare mentions)

/-- A deep copy of a value leads to no hidden cell, even if the value itself does. -/
theorem shields_detachTo {rank : Nat → Nat} (ranked : machine.store.RankedBy rank) (depth : Nat)
    {value : Value} (lent : value.address? = none → machine.Clears bound hand value)
    (deep : ∀ address, value.address? = some address → machine.Hides bound hand address →
      rank address < depth) :
    (shieldedStores machine bound hand).Hands (value.detachTo depth)
      (machine.Clears bound hand) := by
  induction depth generalizing value with
  | zero =>
      refine .pure fun address mentions hides => ?_
      cases value with
      | stored =>
          cases mentions
          exact absurd (deep address rfl hides) (Nat.not_lt_zero _)
      | _ => exact lent rfl address mentions hides
  | succ depth ih =>
      cases value with
      | stored kind address =>
          apply Keeping.bind .get
          intro store shields
          split
          · next cell found =>
              by_cases hides : machine.Hides bound hand address
              · rw [shields.hidden address hides] at found
                apply Keeping.bind
                  (Keeping.mapCell fun part member => ih (clears_bare found member)
                    fun other refers _ => ?_)
                · intro copy inside
                  exact (shieldedStores machine bound hand).cells.hands_allocate kind inside.2
                · exact Nat.lt_of_lt_of_le (ranked.lt_of_part found member refers)
                    (Nat.le_of_lt_succ (deep address rfl hides))
              · have clear := shields.shown address hides cell found
                apply Keeping.bind (Keeping.mapCell fun part member =>
                  ih (fun _ => clear part member) fun other refers otherHides => ?_)
                · intro copy inside
                  exact (shieldedStores machine bound hand).cells.hands_allocate kind inside.2
                · cases part with
                  | stored =>
                      cases refers
                      exact absurd otherHides (clear _ member _ .own)
                  | _ => cases refers
          · next missing =>
              refine .pure fun other mentions hides => ?_
              cases mentions
              rw [shields.hidden address hides] at missing
              obtain ⟨cell, found⟩ := Store.exists_cell_of_lt hides.inBounds
              cases missing.symm.trans found
      | void | error | member | builtin | workflow | invocation => exact .pure (lent rfl)

end

/-- While something runs, hidden cells stay as they are. Pending calls may have them for
arguments. -/
def shielded (machine : Machine) (bound : Nat) (hand : List Value) (rank : Nat → Nat)
    (ranked : machine.store.RankedBy rank) : Guard where
  toStoreGuard := shieldedStores machine bound hand
  lent value := value.address? = none → machine.Clears bound hand value
  place _ := True
  workflow_iff := ⟨fun _ _ _ => trivial, fun _ => nofun⟩
  invocation_iff {tag definition arguments location} := by
    constructor
    · intro clears
      exact ⟨fun _ _ => trivial, fun argument member => ⟨trivial, fun bare address mentions =>
        clears address (.argument member bare mentions)⟩, trivial⟩
    · rintro ⟨-, arguments, -⟩ address mentions
      cases mentions with
      | argument member bare inner => exact (arguments _ member).2 bare address inner
  lent_of_good clears _ := clears
  detach {value} lent := by
    apply Keeping.bind .get
    intro store shields
    apply shields_detachTo ranked store.walkDepth lent
    intro address _ hides
    exact Nat.lt_of_lt_of_le (ranked.bounded address hides.inBounds)
      (Nat.le_succ_of_le shields.size_le)

variable {machine : Machine} {bound : Nat} {hand : List Value}

/-- On the machine itself, whatever leads to a cell shows it. -/
theorem Machine.shields_self {rank : Nat → Nat} (ranked : machine.store.RankedBy rank) :
    (shielded machine bound hand rank ranked).Holds machine where
  scopes := ⟨fun _ member _ mentions hides => hides.apart (.named member mentions),
    fun _ member _ mentions hides => hides.apart (.result member mentions)⟩
  store := by
    refine ⟨Nat.le_refl _, fun _ _ => rfl, fun owner shown cell found value member => ?_⟩
    have inBounds : owner < machine.size := (Array.getElem?_eq_some_iff.mp found).1
    have exposed := Exposes.of_not_hides shown inBounds
    cases value with
    | stored kind address =>
        intro other mentions hides
        cases mentions
        exact hides.apart (.part exposed (Store.mem_parts found member rfl))
    | void | error | member | builtin | workflow | invocation => exact clears_bare found member rfl

/-- The cells of the value, and those inside them. -/
def Value.Reaches (store : Store) (value : Value) (address : Nat) : Prop :=
  ∃ root, value.address? = some root ∧
    Relation.ReflTransGen (fun owner part => part ∈ store.parts owner) root address

/-- Nothing but the value itself leads to its cells. -/
def Value.Private (value : Value) (machine : Machine) (bound : Nat) (hand : List Value) : Prop :=
  ∀ address, value.Reaches machine.store address → ¬ machine.Exposes bound hand address

theorem eq_of_mem_zip_self {α : Type} {items : List α} {pair : α × α}
    (member : pair ∈ items.zip items) : pair.1 = pair.2 := by
  obtain ⟨index, atIndex⟩ := List.mem_iff_getElem?.mp member
  obtain ⟨first, second⟩ := List.getElem?_zip_eq_some.mp atIndex
  exact Option.some.inj (first.symm.trans second)

/-- A value whose cells stay has the contents it had. -/
theorem Value.alike_of_same {allowed : Workflow → Prop} {before after : Store}
    (sound : before.Sound allowed) {value : Value} (within : value.Within allowed before.size)
    (same : ∀ address, value.Reaches before address →
      after.cell? address = before.cell? address) : value.Alike before after value := by
  obtain ⟨rank, ranked⟩ := sound.ranked
  cases value with
  | stored kind address =>
      generalize height : rank address = count
      induction count using Nat.strongRecOn generalizing kind address with
      | _ count ih =>
          subst height
          obtain ⟨cell, found⟩ := Store.exists_cell_of_lt (within.address_lt rfl)
          have kept := (same address ⟨address, rfl, .refl⟩).trans found
          refine .stored found kept rfl fun pair member => ?_
          have inside := (List.of_mem_zip member).2
          rw [eq_of_mem_zip_self member]
          have partWithin := sound.cell_within found pair.2 inside
          cases held : pair.2 with
          | stored partKind part =>
              rw [held] at partWithin
              have isPart : part ∈ before.parts address :=
                Store.mem_parts found inside (by rw [held]; rfl)
              refine ih _ (ranked.descends address part isPart) partKind part partWithin ?_ rfl
              rintro other ⟨root, ⟨⟩, path⟩
              exact same other ⟨address, rfl, path.head isPart⟩
          | void | error | member | builtin | workflow | invocation => exact .bare rfl
  | void | error | member | builtin | workflow | invocation => exact .bare rfl

theorem Value.Reaches.lt {allowed : Workflow → Prop} {store : Store} (sound : store.Sound allowed)
    {value : Value} (within : value.Within allowed store.size) {address : Nat}
    (reaches : value.Reaches store address) : address < store.size := by
  obtain ⟨root, refers, path⟩ := reaches
  cases path with
  | refl => exact within.address_lt refers
  | tail _ part => exact sound.parts_lt part

/-- Whatever runs from the machine on, the cells of a private value stay. -/
theorem Value.Private.same {allowed : Workflow → Prop} (sound : machine.Sound allowed)
    {value : Value} (within : value.Within allowed machine.size)
    (isPrivate : value.Private machine bound hand) {store : Store}
    (shields : store.Shields machine bound hand) {address : Nat}
    (reaches : value.Reaches machine.store address) :
    store.cell? address = machine.store.cell? address :=
  shields.hidden address ⟨reaches.lt sound.store within, isPrivate address reaches⟩

/-- Nothing leads to a scalar that was made last. -/
theorem Value.private_scalar {allowed : Workflow → Prop} {earlier : Machine} {scalar : Scalar}
    (sound : earlier.Sound allowed) (scopes : machine.scopes = earlier.scopes)
    (cells : machine.store.cells = earlier.store.cells.push (.scalar scalar))
    (below : bound ≤ earlier.size)
    (handWithin : ∀ value ∈ hand, value.address? = none → value.Within allowed earlier.size) :
    (Value.stored scalar.kind earlier.size).Private machine bound hand := by
  have values : machine.store.values = earlier.store.values := by
    simp [Store.values, cells, Cell.values]
  have parts : machine.store.parts earlier.size = [] := by
    have found : machine.store.cell? earlier.size = some (.scalar scalar) := by
      rw [Store.cell?, cells]
      exact Array.getElem?_push_size
    exact Store.parts_of_cell found
  rintro address ⟨root, ⟨⟩, path⟩ exposed
  have older : address < earlier.size := by
    refine exposed.lt below handWithin ?_ ?_ ?_
    · exact fun value member => sound.bindings value (scopes ▸ member)
    · exact fun value member => sound.results value (scopes ▸ member)
    · exact fun value member => sound.store.within value (values ▸ member)
  cases path.cases_head with
  | inl same => exact Nat.lt_irrefl _ (same ▸ older)
  | inr step =>
      obtain ⟨part, member, -⟩ := step
      exact absurd (parts ▸ member) List.not_mem_nil

end FlowScript
