import FlowScript.Proofs.Storage.Copy

/-!
# Values with the same contents

Contents are compared across two stores, so that a value can be compared with
its copy. A deep copy has the contents of the value it was made from.
-/

set_option autoImplicit false

namespace FlowScript

/-- A cell without the values in it. -/
inductive Cell.Form where
  | scalar (value : Scalar)
  | array (size : Nat)
  | dictionary (keys : List String)

def Cell.form : Cell → Cell.Form
  | .scalar value => .scalar value
  | .array items => .array items.length
  | .dictionary entries => .dictionary entries.keys

theorem Cell.length_values {cell other : Cell} (same : cell.form = other.form) :
    cell.values.length = other.values.length := by
  cases cell with
  | scalar value =>
      cases other with
      | scalar => rfl
      | _ => cases same
  | array items =>
      cases other with
      | array => exact Form.array.inj same
      | _ => cases same
  | dictionary entries =>
      cases other with
      | dictionary =>
          have lengths := congrArg List.length (Form.dictionary.inj same)
          simpa [values, Dictionary.values, Dictionary.keys] using lengths
      | _ => cases same

/-- Two values have the same contents, the first one in a store and the second
one in another. A value without a cell has only itself as contents. -/
inductive Value.Alike (left right : Store) : Value → Value → Prop where
  | bare {value : Value} : value.address? = none → Alike left right value value
  | stored {kind : StoredKind} {address other : Nat} {cell copy : Cell} :
      left.cell? address = some cell → right.cell? other = some copy →
      cell.form = copy.form →
      (∀ pair ∈ cell.values.zip copy.values, Alike left right pair.1 pair.2) →
      Alike left right (.stored kind address) (.stored kind other)

/-- Every cell is still there, with the contents it had. -/
def Store.Keeps (before after : Store) : Prop :=
  ∀ address cell, before.cell? address = some cell → after.cell? address = some cell

theorem Store.Keeps.trans {first second third : Store} (left : first.Keeps second)
    (right : second.Keeps third) : first.Keeps third :=
  fun address cell found => right address cell (left address cell found)

theorem Store.Extends.keeps {before after : Store} (grown : before.Extends after) :
    before.Keeps after := by
  intro address cell found
  have inBounds : address < before.size := (Array.getElem?_eq_some_iff.mp found).1
  rw [grown.kept address inBounds, found]

theorem Store.keeps_push (store : Store) (cell : Cell) : store.Keeps (store.push cell) := by
  intro address other found
  have inBounds : address < store.size := (Array.getElem?_eq_some_iff.mp found).1
  rw [cell?_push_old inBounds, found]

theorem Value.Alike.mono {left right grown : Store} {value other : Value}
    (alike : value.Alike left right other) (keeps : right.Keeps grown) :
    value.Alike left grown other := by
  induction alike with
  | bare bare => exact .bare bare
  | stored found copied same _ ih => exact .stored found (keeps _ _ copied) same ih

/-- A cell is a deep copy of another one. -/
structure Cell.Alike (left right : Store) (cell copy : Cell) : Prop where
  form : cell.form = copy.form
  values : ∀ pair ∈ cell.values.zip copy.values, pair.1.Alike left right pair.2

theorem Cell.Alike.mono {left right grown : Store} {cell copy : Cell}
    (alike : cell.Alike left right copy) (keeps : right.Keeps grown) :
    cell.Alike left grown copy :=
  ⟨alike.form, fun pair member => (alike.values pair member).mono keeps⟩

/-! ## Copies -/

/-- A list is mapped with the pairs of items and results in view. -/
theorem after_mapM_zip {σ α β : Type} {state : σ} {change : α → StateM σ β}
    (invariant : List (α × β) → σ → Prop) (items : List α) (start : invariant [] state)
    (step : ∀ (done : List (α × β)) (item : α) (middle : σ), item ∈ items →
      invariant done middle →
      After (change item) middle fun result final => invariant (done ++ [(item, result)]) final) :
    After (items.mapM change) state fun results final =>
      items.length = results.length ∧ invariant (items.zip results) final := by
  suffices mapped : ∀ (rest : List α) (done : List (α × β)) (middle : σ),
      (∀ item ∈ rest, item ∈ items) → invariant done middle →
      After (rest.mapM change) middle fun results final =>
        rest.length = results.length ∧ invariant (done ++ rest.zip results) final from
    mapped items [] state (fun _ member => member) start
  intro rest
  induction rest with
  | nil =>
      intro done middle _ holds
      simpa using holds
  | cons item rest ih =>
      intro done middle members holds
      rw [List.mapM_cons]
      simp only [after_bind, after_pure]
      apply (step done item middle (members item List.mem_cons_self) holds).imp
      intro result next stepped
      apply (ih (done ++ [(item, result)]) next
        (fun other member => members other (List.mem_cons_of_mem _ member)) stepped).imp
      intro results final mapped
      simpa using mapped

theorem Cell.after_mapM_zip {change : Value → StoreM Value} {store : Store}
    (invariant : List (Value × Value) → Store → Prop) (cell : Cell) (start : invariant [] store)
    (step : ∀ (done : List (Value × Value)) (value : Value) (middle : Store),
      value ∈ cell.values → invariant done middle →
      After (change value) middle fun result final =>
        invariant (done ++ [(value, result)]) final) :
    After (cell.mapM change) store fun copy final =>
      cell.form = copy.form ∧ invariant (cell.values.zip copy.values) final := by
  cases cell with
  | scalar value => exact ⟨rfl, start⟩
  | array items =>
      simp only [mapM, after_bind, after_pure]
      apply (FlowScript.after_mapM_zip invariant items start step).imp
      intro copies final mapped
      exact ⟨congrArg Cell.Form.array mapped.1, mapped.2⟩
  | dictionary entries =>
      simp only [mapM, Dictionary.mapM, after_bind, after_pure]
      -- Keys are carried along with the pairs of values.
      apply (FlowScript.after_mapM_zip
        (fun (done : List ((String × Value) × (String × Value))) final =>
          done.map (·.1.1) = done.map (·.2.1) ∧
            invariant (done.map (Prod.map (·.2) (·.2))) final)
        entries.entries ⟨rfl, start⟩ ?_).imp
      · rintro copies final ⟨sameLength, sameKeys, holds⟩
        have first : (entries.entries.zip copies).map (·.1) = entries.entries :=
          List.map_fst_zip (Nat.le_of_eq sameLength)
        have second : (entries.entries.zip copies).map (·.2) = copies :=
          List.map_snd_zip (Nat.le_of_eq sameLength.symm)
        have keys : entries.keys = copies.map (·.1) := by
          rw [Dictionary.keys, ← first, ← second, List.map_map, List.map_map]
          simpa [first, second] using sameKeys
        have pairs : entries.values.zip (copies.map (·.2)) =
            (entries.entries.zip copies).map (Prod.map (·.2) (·.2)) :=
          List.zip_map
        rw [← pairs] at holds
        exact ⟨congrArg Cell.Form.dictionary keys, holds⟩
      · rintro done entry middle member ⟨sameKeys, holds⟩
        obtain ⟨key, value⟩ := entry
        simp only [after_bind, after_pure]
        apply (step _ value middle (List.mem_map_of_mem member) holds).imp
        intro result final stepped
        simpa [sameKeys] using stepped

/-- Values were made since a store as copies of others, which have their contents in
an older one. The cells of the copies are new. -/
structure Store.Duplicates (older before after : Store) (pairs : List (Value × Value)) :
    Prop where
  grown : before.Extends after
  alike : ∀ pair ∈ pairs, pair.1.Alike older after pair.2
  fresh : ∀ address ∈ addresses (pairs.map (·.2)), before.size ≤ address ∧ address < after.size

namespace Store.Duplicates

variable {older before store : Store}

theorem none (older store : Store) : older.Duplicates store store [] :=
  ⟨.refl store, by simp, by simp⟩

theorem bare {value : Value} (bare : value.address? = .none) :
    older.Duplicates store store [(value, value)] where
  grown := .refl store
  alike pair member := by
    rw [List.mem_singleton] at member
    exact member ▸ .bare bare
  fresh address member := by simp [addresses, bare] at member

theorem append {final : Store} {left right : List (Value × Value)}
    (earlier : older.Duplicates before store left) (later : older.Duplicates store final right) :
    older.Duplicates before final (left ++ right) where
  grown := earlier.grown.trans later.grown
  alike pair member := by
    rcases List.mem_append.mp member with inLeft | inRight
    · exact (earlier.alike pair inLeft).mono later.grown.keeps
    · exact later.alike pair inRight
  fresh address member := by
    have first := earlier.grown.size_le
    have second := later.grown.size_le
    rw [List.map_append, addresses_append, List.mem_append] at member
    rcases member with inLeft | inRight
    · have within := earlier.fresh address inLeft
      omega
    · have within := later.fresh address inRight
      omega

/-- The copies of what a cell holds. -/
theorem parts {cell copy : Cell} (form : cell.form = copy.form)
    (copied : older.Duplicates before store (cell.values.zip copy.values)) :
    ∀ part ∈ copy.parts, before.size ≤ part ∧ part < store.size := by
  have copies : (cell.values.zip copy.values).map (·.2) = copy.values :=
    List.map_snd_zip (Nat.le_of_eq (Cell.length_values form).symm)
  intro part member
  apply copied.fresh
  rw [copies]
  exact member

theorem push {kind : StoredKind} {address : Nat} {cell copy : Cell}
    (found : older.cell? address = some cell) (form : cell.form = copy.form)
    (copied : older.Duplicates before store (cell.values.zip copy.values)) :
    older.Duplicates before (store.push copy)
      [(.stored kind address, .stored kind store.size)] where
  grown := copied.grown.push_fresh (copied.parts form)
  alike pair member := by
    rw [List.mem_singleton] at member
    subst member
    exact .stored found (cell?_push_new store copy) form fun part partMember =>
      (copied.alike part partMember).mono (store.keeps_push copy)
  fresh other member := by
    have same : other = store.size := by simpa [addresses, Value.address?] using member
    have le := copied.grown.size_le
    rw [size_push]
    omega

end Store.Duplicates

/-- A cell is copied by copying what it holds, one value after the other. -/
theorem Cell.mapM_duplicates {change : Value → StoreM Value} {older store : Store} (cell : Cell)
    (grown : older.Extends store)
    (step : ∀ part ∈ cell.values, ∀ middle, older.Extends middle →
      After (change part) middle fun copy final => older.Duplicates middle final [(part, copy)]) :
    After (cell.mapM change) store fun copy final =>
      cell.form = copy.form ∧ older.Duplicates store final (cell.values.zip copy.values) := by
  apply Cell.after_mapM_zip (fun done middle => older.Duplicates store middle done) cell
    (.none older store)
  intro done part middle member copied
  apply (step part member middle (grown.trans copied.grown)).imp
  intro copy final copiedPart
  exact copied.append copiedPart

namespace Value

variable {allowed : Workflow → Prop}

/-- A walk that may go deeper than the rank of the value copies all of it, whether or
not parts of it are shared. The store may have grown since the ranks were taken. -/
theorem detachTo_duplicates {older : Store} (cellsBacked : older.Backed) {rank : Nat → Nat}
    (ranked : older.RankedBy rank) (depth : Nat) (value : Value) {store : Store}
    (grown : older.Extends store) (backed : value.Backed older)
    (deep : ∀ address, value.address? = some address → rank address < depth) :
    After (value.detachTo depth) store fun copy final =>
      older.Duplicates store final [(value, copy)] := by
  induction depth generalizing value store with
  | zero =>
      cases value with
      | stored kind address => exact absurd (deep address rfl) (Nat.not_lt_zero _)
      | _ => exact .bare rfl
  | succ depth ih =>
      cases value with
      | stored kind address =>
          have inBounds : address < older.size := backed address rfl
          obtain ⟨cell, found⟩ := Store.exists_cell_of_lt inBounds
          have current : store.cell? address = some cell := by
            rw [grown.kept address inBounds, found]
          simp only [detachTo, after_bind, after_get, current]
          apply (cell.mapM_duplicates grown ?_).imp
          · intro copy final copied
            exact copied.2.push found copied.1
          · intro part member middle partGrown
            apply ih part partGrown (cellsBacked.part found member)
            exact fun below refers => Nat.lt_of_lt_of_le (ranked.lt_of_part found member refers)
              (Nat.le_of_lt_succ (deep address rfl))
      | _ => exact .bare rfl

theorem detach_alike {earlier store : Store} (earlierSound : earlier.Sound allowed)
    (grown : earlier.Extends store) {value : Value} (within : value.Within allowed earlier.size) :
    After value.detach store fun copy final => value.Alike earlier final copy := by
  obtain ⟨rank, ranked⟩ := earlierSound.ranked
  have deep : ∀ address, value.address? = some address → rank address < store.walkDepth := by
    intro address refers
    have bounded := ranked.bounded address (within.address_lt refers)
    exact Nat.lt_succ_of_lt (Nat.lt_of_lt_of_le bounded grown.size_le)
  have duplicates := detachTo_duplicates earlierSound.backed ranked store.walkDepth value grown
    within.backed deep
  exact duplicates.imp fun copy final copied => copied.alike (value, copy) List.mem_cons_self

end Value

end FlowScript
