import FlowScript.Proofs.Storage.Soundness

/-!
# Deep copies

A deep copy is made of new cells only. This needs the rank of the store: a walk
that may go deeper than there are cells never has to stop early.
-/

set_option autoImplicit false

namespace FlowScript

variable {allowed : Workflow → Prop}

/-- The store stays sound, and no old cell that was free is held now. -/
structure Store.Advances (allowed : Workflow → Prop) (before after : Store) : Prop where
  sound : after.Sound allowed
  evolves : before.Evolves after

theorem Store.Advances.refl {store : Store} (sound : store.Sound allowed) :
    store.Advances allowed store :=
  ⟨sound, .refl store⟩

/-- Some values were made since a store: their cells are new and held by nobody,
and nothing else has changed. -/
structure Copied (allowed : Workflow → Prop) (before after : Store) (values : List Value) :
    Prop where
  sound : after.Sound allowed
  grown : before.Extends after
  loose : Loose before.size after.held values
  within : ∀ value ∈ values, value.Within allowed after.size

namespace Copied

theorem none {store : Store} (sound : store.Sound allowed) : Copied allowed store store [] :=
  ⟨sound, .refl store, .nil, by simp⟩

theorem advances {before after : Store} {values : List Value}
    (copied : Copied allowed before after values) : before.Advances allowed after :=
  ⟨copied.sound, copied.grown.evolves⟩

theorem bare {store : Store} (sound : store.Sound allowed) {value : Value}
    (within : value.Within allowed store.size) (bare : value.address? = .none) :
    Copied allowed store store [value] :=
  ⟨sound, .refl store, .of_address?_eq_none bare, by simpa using within⟩

theorem append {first second third : Store} {left right : List Value}
    (earlier : Copied allowed first second left) (later : Copied allowed second third right) :
    Copied allowed first third (left ++ right) where
  sound := later.sound
  grown := earlier.grown.trans later.grown
  loose := (earlier.loose.evolve later.grown.evolves earlier.within).append later.loose
    earlier.grown.size_le earlier.within
  within value member := by
    rcases List.mem_append.mp member with inLeft | inRight
    · exact (earlier.within value inLeft).mono later.grown.size_le
    · exact later.within value inRight

theorem push {before store : Store} {cell : Cell}
    (copied : Copied allowed before store cell.values) (kind : StoredKind) :
    Copied allowed before (store.push cell) [.stored kind store.size] where
  sound := copied.sound.push copied.loose copied.within
  grown := copied.grown.push copied.loose copied.within
  loose := (copied.sound.loose_push copied.within kind).mono copied.grown.size_le
  within value member := by
    rw [List.mem_singleton] at member
    subst member
    exact .stored (by rw [Store.size_push]; omega)

end Copied

/-! ## New values -/

theorem allocate_copied {before store : Store} {cell : Cell}
    (copied : Copied allowed before store cell.values) (kind : StoredKind) :
    After (allocate kind cell) store fun value final => Copied allowed before final [value] :=
  copied.push kind

theorem newScalar_copied {store : Store} (sound : store.Sound allowed) (scalar : Scalar) :
    After (newScalar scalar) store fun value final => Copied allowed store final [value] :=
  allocate_copied (Copied.none sound) scalar.kind

theorem Store.Sound.withTag {store : Store} (sound : store.Sound allowed) (tag : Nat) :
    Store.Sound allowed { store with nextTag := tag } :=
  ⟨sound.single, sound.ranked.imp fun _ ranked => ⟨ranked.descends, ranked.bounded⟩,
    sound.within⟩

theorem Copied.withTag {store : Store} (sound : store.Sound allowed) (tag : Nat) {value : Value}
    (within : value.Within allowed store.size) (bare : value.address? = .none) :
    Copied allowed store { store with nextTag := tag } [value] where
  sound := sound.withTag tag
  grown := ⟨Nat.le_refl _, fun _ _ => rfl, (Store.Extends.refl store).closed⟩
  loose := .of_address?_eq_none bare
  within other member := by
    rw [List.mem_singleton] at member
    exact member ▸ within

theorem newError_copied {store : Store} (sound : store.Sound allowed) (message : String)
    (location : Option Span) :
    After (newError message location) store fun value final =>
      Copied allowed store final [value] :=
  Copied.withTag sound _ .error rfl

theorem newInvocation_copied {store : Store} (sound : store.Sound allowed)
    {definition : Workflow} {arguments : CallArguments} (known : allowed definition)
    (within : arguments.Within allowed store.size) (location : Span) :
    After (newInvocation definition arguments location) store fun value final =>
      Copied allowed store final [value] :=
  Copied.withTag sound _ (.invocation known within) rfl

/-! ## Copies of values and cells -/

theorem Cell.after_mapM {change : Value → StoreM Value} {store : Store}
    (invariant : List Value → Store → Prop) (cell : Cell) (start : invariant [] store)
    (step : ∀ (done : List Value) (value : Value) (middle : Store), value ∈ cell.values →
      invariant done middle →
      After (change value) middle fun result final => invariant (done ++ [result]) final) :
    After (cell.mapM change) store fun copy final => invariant copy.values final := by
  cases cell with
  | scalar value => exact start
  | array items => exact FlowScript.after_mapM invariant items start step
  | dictionary entries =>
      refine FlowScript.after_mapM
        (fun (done : List (String × Value)) final => invariant (done.map (·.2)) final)
        entries.entries start ?_
      intro done entry middle member holds
      obtain ⟨key, value⟩ := entry
      have inValues : value ∈ entries.values := List.mem_map_of_mem member
      simp only [after_bind, after_pure]
      refine (step (done.map (·.2)) value middle inValues holds).imp ?_
      intro result final stepped
      simpa using stepped

namespace Value

/-- A walk that may go deeper than the rank of the value copies all of it. The
store may have grown since the ranks were taken. -/
theorem detachTo_copied {ranking : Store} (sound : ranking.Sound allowed) {rank : Nat → Nat}
    (ranked : ranking.RankedBy rank) (depth : Nat) (value : Value) {store : Store}
    (storeSound : store.Sound allowed) (grown : ranking.Extends store)
    (within : value.Within allowed ranking.size)
    (deep : ∀ address, value.address? = some address → rank address < depth) :
    After (value.detachTo depth) store fun copy final => Copied allowed store final [copy] := by
  have keeps : value.address? = none → Copied allowed store store [value] :=
    Copied.bare storeSound (within.mono grown.size_le)
  induction depth generalizing value store with
  | zero =>
      have bare : value.address? = none := by
        cases refers : value.address? with
        | none => rfl
        | some address => exact absurd (deep address refers) (Nat.not_lt_zero _)
      exact keeps bare
  | succ depth ih =>
      cases value with
      | stored kind address =>
          have inBounds : address < ranking.size := within.address_lt rfl
          obtain ⟨cell, found⟩ := Store.exists_cell_of_lt inBounds
          have current : store.cell? address = some cell := by
            rw [grown.kept address inBounds, found]
          simp only [detachTo, after_bind, after_get, current]
          have copies : After (cell.mapM (detachTo depth)) store fun copy final =>
              Copied allowed store final copy.values := by
            apply Cell.after_mapM (fun done middle => Copied allowed store middle done) cell
              (Copied.none storeSound)
            intro done part middle member copied
            have partWithin := sound.cell_within found part member
            have partGrown := grown.trans copied.grown
            have partDeep : ∀ below, part.address? = some below → rank below < depth :=
              fun below refers => Nat.lt_of_lt_of_le (ranked.lt_of_part found member refers)
                (Nat.le_of_lt_succ (deep address rfl))
            refine (ih part copied.sound partGrown partWithin partDeep
              (Copied.bare copied.sound (partWithin.mono partGrown.size_le))).imp ?_
            intro copy final copiedPart
            exact copied.append copiedPart
          refine copies.imp ?_
          intro copy final copied
          exact copied.push kind
      | _ => exact keeps rfl

theorem rank_lt_walkDepth {store : Store} {rank : Nat → Nat} (ranked : store.RankedBy rank)
    {value : Value} (backed : value.Backed store) :
    ∀ address, value.address? = some address → rank address < store.walkDepth :=
  fun address refers => Nat.lt_succ_of_lt (ranked.bounded address (backed address refers))

theorem detach_copied {store : Store} (sound : store.Sound allowed) {value : Value}
    (within : value.Within allowed store.size) :
    After value.detach store fun copy final => Copied allowed store final [copy] := by
  obtain ⟨rank, ranked⟩ := sound.ranked
  exact detachTo_copied sound ranked store.walkDepth value sound (.refl store) within
    (rank_lt_walkDepth ranked within.backed)

/-- The copied contents of a stored value are made of new cells. Only a value
that has no cell has no contents. -/
theorem detachedCell?_copied {store : Store} (sound : store.Sound allowed) {value : Value}
    (within : value.Within allowed store.size) :
    After value.detachedCell? store fun result final =>
      match result with
      | some cell => Copied allowed store final cell.values
      | none => final = store ∧ value.address? = none := by
  obtain ⟨rank, ranked⟩ := sound.ranked
  cases value with
  | stored kind address =>
      obtain ⟨cell, found⟩ := Store.exists_cell_of_lt (within.address_lt rfl)
      simp only [detachedCell?, after_bind, after_get, found, after_pure]
      apply Cell.after_mapM (fun done middle => Copied allowed store middle done) cell
        (Copied.none sound)
      intro done part middle member copied
      have partWithin := sound.cell_within found part member
      refine (detachTo_copied sound ranked store.walkDepth part copied.sound copied.grown
        partWithin (rank_lt_walkDepth ranked partWithin.backed)).imp ?_
      intro copy final copiedPart
      exact copied.append copiedPart
  | _ => exact ⟨rfl, rfl⟩

end Value

/-! ## Writing copies -/

theorem Copied.write {before store : Store} (sound : before.Sound allowed) {address : Nat}
    (inBounds : address < before.size) {cell : Cell} {fresh : List Value}
    (copied : Copied allowed before store fresh) (single : cell.parts.Nodup)
    (parts : ∀ part ∈ cell.parts, part ∈ before.parts address ∨ part ∈ addresses fresh)
    (within : ∀ value ∈ cell.values, value.Within allowed store.size) :
    before.Advances allowed (store.write address cell) := by
  have origin : ∀ part ∈ cell.parts,
      part ∈ before.parts address ∨ (before.size ≤ part ∧ part ∉ store.held) := by
    intro part member
    rcases parts part member with kept | new
    · exact .inl kept
    · exact .inr ⟨copied.loose.fresh part new, copied.loose.free part new⟩
  exact ⟨sound.write copied.grown inBounds copied.sound single origin within,
    copied.grown.evolves_write inBounds origin⟩

theorem Copied.replace {before store : Store} (sound : before.Sound allowed) {address : Nat}
    (inBounds : address < before.size) {cell : Cell}
    (copied : Copied allowed before store cell.values) :
    before.Advances allowed (store.write address cell) :=
  copied.write sound inBounds copied.loose.single (fun _ member => .inr member) copied.within

/-- Every older cell but the value's own has the contents it had. -/
def Store.Spares (before : Store) (value : Value) (after : Store) : Prop :=
  ∀ address < before.size, value.address? ≠ some address →
    after.cell? address = before.cell? address

theorem Copied.spares_write {before store : Store} {values : List Value}
    (copied : Copied allowed before store values) (kind : StoredKind) (address : Nat)
    (cell : Cell) : before.Spares (.stored kind address) (store.write address cell) := by
  intro other old differs
  have apart : address ≠ other := fun same => differs (congrArg some same)
  rw [Store.cell?_write_other store cell apart, copied.grown.kept other old]

namespace Value

/-- Overwriting keeps the store sound and writes to the target only. It is refused
between values of one kind only when they have no cells. -/
theorem overwrite_advances {store : Store} (sound : store.Sound allowed) {target source : Value}
    (targetWithin : target.Within allowed store.size)
    (sourceWithin : source.Within allowed store.size) :
    After (target.overwrite source) store fun done final =>
      (store.Advances allowed final ∧ store.Spares target final) ∧
        (done = false → target.kind = source.kind → source.address? = none) := by
  have stays : store.Advances allowed store ∧ store.Spares target store :=
    ⟨.refl sound, fun _ _ _ => rfl⟩
  cases target with
  | stored targetKind address =>
      cases source with
      | stored sourceKind sourceAddress =>
          simp only [overwrite]
          split
          · simp only [after_bind]
            refine (detachedCell?_copied sound sourceWithin).imp ?_
            intro result middle copied
            cases result with
            | some cell =>
                simp only [after_bind, after_modify, after_pure]
                exact ⟨⟨copied.replace sound (targetWithin.address_lt rfl),
                  copied.spares_write targetKind address cell⟩, by simp⟩
            | none => exact absurd copied.2 (by simp [address?])
          · next differs =>
              refine ⟨stays, fun _ same => ?_⟩
              exact absurd (Kind.stored.inj same) differs
      | _ => exact ⟨stays, fun _ _ => rfl⟩
  | _ =>
      cases source with
      | stored => exact ⟨stays, fun _ same => by cases same⟩
      | _ => exact ⟨stays, fun _ _ => rfl⟩

end Value

end FlowScript
