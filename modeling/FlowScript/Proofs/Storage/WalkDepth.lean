import FlowScript.Proofs.Storage.Copy
import FlowScript.Value.Equality

/-!
# Walks over values end

A walk over a value goes down from cells to the cells they hold. In a store whose
cells are ranked it cannot go deeper than the ranks allow, so that a greater limit
on its depth makes no difference.
-/

set_option autoImplicit false

namespace FlowScript

variable {allowed : Workflow → Prop} {store : Store} {rank : Nat → Nat}

/-- A walk down to the depth reaches everything below the value. -/
structure Value.HasRoom (rank : Nat → Nat) (depth : Nat) (value : Value) : Prop where
  positive : 0 < depth
  deep : ∀ address, value.address? = some address → rank address + 1 < depth

theorem Value.HasRoom.part (ranked : store.RankedBy rank) {depth address : Nat}
    {kind : StoredKind} (room : (Value.stored kind address).HasRoom rank (depth + 1)) {cell : Cell}
    (found : store.cell? address = some cell) {part : Value} (member : part ∈ cell.values) :
    part.HasRoom rank depth := by
  have here := room.deep address rfl
  refine ⟨by omega, fun below refers => ?_⟩
  have descends := ranked.lt_of_part found member refers
  omega

namespace Value

theorem renderTo_of_hasRoom (ranked : store.RankedBy rank) {depth more : Nat} {value : Value}
    (room : value.HasRoom rank depth) (enough : depth ≤ more) :
    value.renderTo more store = value.renderTo depth store := by
  induction depth generalizing more value with
  | zero => exact absurd room.positive (Nat.lt_irrefl 0)
  | succ depth ih =>
      obtain ⟨less, rfl⟩ : ∃ less, more = less + 1 := ⟨more - 1, by omega⟩
      have below : depth ≤ less := Nat.le_of_succ_le_succ enough
      cases value with
      | stored kind address =>
          cases found : store.cell? address with
          | none => simp only [renderTo, found]
          | some cell =>
              have parts : ∀ part ∈ cell.values,
                  renderTo less store part = renderTo depth store part :=
                fun part member => ih (room.part ranked found member) below
              cases cell with
              | scalar scalar => simp only [renderTo, found]
              | array items =>
                  have same : items.map (renderTo less store) = items.map (renderTo depth store) :=
                    List.map_congr_left parts
                  simp only [renderTo, found, same]
              | dictionary entries =>
                  simp only [renderTo, found]
                  rw [List.map_congr_left fun entry member => by
                    rw [parts entry.2 (List.mem_map_of_mem member)]]
      | _ => rfl

theorem allPairs_congr {left right : Value → Value → Bool} {items others : List Value}
    (same : ∀ item ∈ items, ∀ other, left item other = right item other) :
    allPairs left items others = allPairs right items others := by
  induction items generalizing others with
  | nil => cases others <;> rfl
  | cons item rest ih =>
      rw [List.forall_mem_cons] at same
      cases others with
      | nil => rfl
      | cons other others => simp only [allPairs, same.1 other, ih same.2]

/-- Whether two cells hold equal contents, when parts are compared by a test. -/
def cellsEqual? (test : Value → Value → Bool) : Cell → Cell → Option Bool
  | .scalar left, .scalar right =>
      match Scalar.binary .equal left right with
      | some (.ok (.boolean answer)) => some answer
      | _ => none
  | .array left, .array right => some (allPairs test left right)
  | .dictionary left, .dictionary right =>
      some (left.size == right.size && left.entries.all fun (key, value) =>
        match right.get? key with
        | some other => test value other
        | none => false)
  | _, _ => none

theorem equalTo?_stored (depth : Nat) (store : Store) (kind otherKind : StoredKind)
    (address other : Nat) :
    equalTo? (depth + 1) store (.stored kind address) (.stored otherKind other) =
      match store.cell? address, store.cell? other with
      | some cell, some otherCell =>
          cellsEqual? (fun left right => (equalTo? depth store left right).getD false) cell
            otherCell
      | _, _ => none := by
  simp only [equalTo?]
  cases store.cell? address with
  | none => rfl
  | some cell =>
      cases store.cell? other with
      | none => cases cell <;> rfl
      | some otherCell => cases cell <;> cases otherCell <;> rfl

theorem cellsEqual?_congr {left right : Value → Value → Bool} {cell : Cell}
    (same : ∀ part ∈ cell.values, ∀ other, left part other = right part other) (other : Cell) :
    cellsEqual? left cell other = cellsEqual? right cell other := by
  cases cell with
  | scalar => cases other <;> rfl
  | array items =>
      cases other with
      | array others => exact congrArg some (allPairs_congr same)
      | _ => rfl
  | dictionary entries =>
      cases other with
      | dictionary others =>
          have entriesSame : ∀ entry ∈ entries.entries, ∀ other,
              left entry.2 other = right entry.2 other :=
            fun entry member => same entry.2 (List.mem_map_of_mem member)
          have tests : (entries.entries.all fun (key, value) =>
                match others.get? key with
                | some other => left value other
                | none => false) =
              entries.entries.all fun (key, value) =>
                match others.get? key with
                | some other => right value other
                | none => false := by
            rw [Bool.eq_iff_iff, List.all_eq_true, List.all_eq_true]
            refine forall₂_congr fun (key, value) member => ?_
            dsimp only
            cases others.get? key with
            | none => rfl
            | some other => simp only [entriesSame (key, value) member other]
          simp only [cellsEqual?, tests]
      | _ => rfl

theorem equalTo?_of_hasRoom (ranked : store.RankedBy rank) {depth more : Nat} {value : Value}
    (room : value.HasRoom rank depth) (enough : depth ≤ more) (other : Value) :
    value.equalTo? more store other = value.equalTo? depth store other := by
  induction depth generalizing more value other with
  | zero => exact absurd room.positive (Nat.lt_irrefl 0)
  | succ depth ih =>
      obtain ⟨less, rfl⟩ : ∃ less, more = less + 1 := ⟨more - 1, by omega⟩
      have below : depth ≤ less := Nat.le_of_succ_le_succ enough
      cases value with
      | stored kind address =>
          cases other with
          | stored otherKind otherAddress =>
              rw [equalTo?_stored, equalTo?_stored]
              cases found : store.cell? address with
              | none => rfl
              | some cell =>
                  cases store.cell? otherAddress with
                  | none => rfl
                  | some otherCell =>
                      apply cellsEqual?_congr
                      intro part member other
                      rw [ih (room.part ranked found member) below other]
          | _ => rfl
      | _ => cases other <;> rfl

theorem run_mapM_congr {σ α β : Type} {left right : α → StateM σ β} (invariant : σ → Prop)
    (items : List α) (same : ∀ item ∈ items, ∀ state, invariant state →
      (left item).run state = (right item).run state ∧ invariant ((right item).run state).2)
    {state : σ} (start : invariant state) :
    (items.mapM left).run state = (items.mapM right).run state := by
  induction items generalizing state with
  | nil => rfl
  | cons item rest ih =>
      rw [List.forall_mem_cons] at same
      obtain ⟨first, kept⟩ := same.1 state start
      have others := ih same.2 kept
      have step : ∀ change : α → StateM σ β, ((item :: rest).mapM change).run state =
          (let (result, middle) := (change item).run state
          let (results, final) := (rest.mapM change).run middle
          (result :: results, final)) := by
        intro change
        rw [List.mapM_cons]
        rfl
      rw [step, step, first]
      cases ran : (right item).run state with
      | mk result middle =>
          rw [ran] at others
          simp only [others]

theorem run_cell_mapM_congr {left right : Value → StoreM Value} (invariant : Store → Prop)
    (cell : Cell) (same : ∀ part ∈ cell.values, ∀ store, invariant store →
      (left part).run store = (right part).run store ∧ invariant ((right part).run store).2)
    {store : Store} (start : invariant store) :
    (cell.mapM left).run store = (cell.mapM right).run store := by
  cases cell with
  | scalar => rfl
  | array items =>
      have step : ∀ change : Value → StoreM Value, ((Cell.array items).mapM change).run store =
          (let (copies, final) := (items.mapM change).run store
          (.array copies, final)) := fun _ => rfl
      rw [step, step, run_mapM_congr invariant items same start]
  | dictionary entries =>
      have step : ∀ change : Value → StoreM Value,
          ((Cell.dictionary entries).mapM change).run store =
            (let (copies, final) := (entries.entries.mapM fun (entry : String × Value) => do
              let copy ← change entry.2
              pure (entry.1, copy)).run store
            (.dictionary ⟨copies⟩, final)) := fun _ => rfl
      rw [step, step, run_mapM_congr invariant entries.entries _ start]
      intro entry member middle holds
      obtain ⟨sameRun, kept⟩ := same entry.2 (List.mem_map_of_mem member) middle holds
      have single : ∀ change : Value → StoreM Value, (do
          let copy ← change entry.2
          pure (entry.1, copy) : StoreM (String × Value)).run middle =
            (let (copy, final) := (change entry.2).run middle
            ((entry.1, copy), final)) := fun _ => rfl
      rw [single, single, sameRun]
      exact ⟨rfl, kept⟩

/-- Copying goes through a store that grows meanwhile; the ranks are those of the
store before any copy. -/
theorem detachTo_of_deep {ranking : Store} (sound : ranking.Sound allowed)
    (ranked : ranking.RankedBy rank) {depth more : Nat} {value : Value} {store : Store}
    (storeSound : store.Sound allowed) (grown : ranking.Extends store)
    (within : value.Within allowed ranking.size)
    (deep : ∀ address, value.address? = some address → rank address < depth)
    (enough : depth ≤ more) :
    (value.detachTo more).run store = (value.detachTo depth).run store := by
  induction depth generalizing more value store with
  | zero =>
      cases value with
      | stored kind address => exact absurd (deep address rfl) (Nat.not_lt_zero _)
      | _ => cases more <;> rfl
  | succ depth ih =>
      obtain ⟨less, rfl⟩ : ∃ less, more = less + 1 := ⟨more - 1, by omega⟩
      cases value with
      | stored kind address =>
          have inBounds : address < ranking.size := within.address_lt rfl
          obtain ⟨cell, found⟩ := Store.exists_cell_of_lt inBounds
          have current : store.cell? address = some cell := by
            rw [grown.kept address inBounds, found]
          have copies : (cell.mapM (detachTo less)).run store =
              (cell.mapM (detachTo depth)).run store := by
            apply run_cell_mapM_congr (fun middle => middle.Sound allowed ∧ ranking.Extends middle)
              cell _ ⟨storeSound, grown⟩
            rintro part member middle ⟨middleSound, middleGrown⟩
            have partWithin := sound.cell_within found part member
            have partDeep : ∀ below, part.address? = some below → rank below < depth :=
              fun below refers => Nat.lt_of_lt_of_le (ranked.lt_of_part found member refers)
                (Nat.le_of_lt_succ (deep address rfl))
            have copied := detachTo_copied sound ranked depth part middleSound middleGrown
              partWithin partDeep
            exact ⟨ih middleSound middleGrown partWithin partDeep
              (Nat.le_of_succ_le_succ enough), copied.sound, middleGrown.trans copied.grown⟩
          have step : ∀ limit, (detachTo (limit + 1) (.stored kind address)).run store =
              (let (copy, final) := (cell.mapM (detachTo limit)).run store
              (allocate kind copy).run final) := by
            intro limit
            simp only [detachTo, StateT.run_bind, StateT.run_get, pure_bind, current]
            rfl
          rw [step, step, copies]
      | _ => rfl

end Value

/-- No walk over the value needs to go deeper than it may. -/
def Store.WalksEnd (store : Store) (value : Value) : Prop :=
  ∀ depth ≥ store.walkDepth,
    (value.detachTo depth).run store = value.detach.run store ∧
      value.renderTo depth store = value.render store ∧
      ∀ other, value.equalTo? depth store other = value.equal? store other

theorem Store.Sound.walksEnd (sound : store.Sound allowed) {value : Value}
    (within : value.Within allowed store.size) : store.WalksEnd value := by
  obtain ⟨rank, ranked⟩ := sound.ranked
  have room : value.HasRoom rank store.walkDepth := by
    refine ⟨Nat.succ_pos _, fun address refers => ?_⟩
    exact Nat.succ_lt_succ (ranked.bounded address (within.address_lt refers))
  intro depth enough
  exact ⟨Value.detachTo_of_deep sound ranked sound (.refl store) within
      (fun address refers => Nat.lt_of_succ_lt (room.deep address refers)) enough,
    Value.renderTo_of_hasRoom ranked room enough,
    Value.equalTo?_of_hasRoom ranked room enough⟩

end FlowScript
