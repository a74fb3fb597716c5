import FlowScript.Proofs.Storage.Descent
import FlowScript.Proofs.Variable.Initialisation

/-!
# Reading an entry that was assigned

An assignment to `p.k` looks `k` up among the entries of the dictionary that `p` leads
to. A path looks at the properties and functions of the dictionary first. So a path
reads what was assigned, unless `k` is the name of one of those.
-/

set_option autoImplicit false

namespace FlowScript

open RunM

variable {allowed : Workflow → Prop} {store : Store}

/-! ## Putting a value under a key -/

namespace Store

variable {kind : StoredKind} {address : Nat} {key : String} {value : Value}

theorem cell?_putEntry_other {other : Nat} (differs : address ≠ other) :
    (store.putEntry (.stored kind address) address key value).cell? other = store.cell? other := by
  unfold putEntry
  split
  · exact cell?_write_other store _ differs
  · rfl

theorem entry_putEntry {entries : Dictionary Value}
    (found : store.dictionary? (.stored kind address) = some entries) :
    ((store.putEntry (.stored kind address) address key value).dictionary?
      (.stored kind address)).bind (·.get? key) = some value := by
  have inBounds : address < store.size :=
    (Array.getElem?_eq_some_iff.mp (dictionary?_eq_some found)).1
  have written := cell?_write_same (.dictionary (entries.insert key value)) inBounds
  simp only [putEntry, found]
  simp [dictionary?, written, Dictionary.get?_insert]

end Store

/-- What an assignment to an entry does: the entry is assigned to, and then the result is
put under its key. -/
theorem RunM.Returns.assignEntry {parent source : Value} {key : Identifier} {span : Span}
    {machine final : Machine}
    (returns : (FlowScript.assignEntry parent key source span).Returns machine () final) :
    ∃ kind address current stored store, parent = .stored kind address ∧
      (machine.store.dictionary? parent).bind (·.get? key.name) = some current ∧
      (current.assign source).run.run machine.store = (.ok stored, store) ∧
      final = { machine with store := store.putEntry parent address key.name stored } := by
  obtain ⟨_, _, reads, assigns⟩ := RunM.Returns.steps returns
  cases reads
  split at assigns
  · next kind address current found =>
      obtain ⟨stored, _, made, written⟩ := assigns.steps
      obtain ⟨store, ran, rfl⟩ := made.onStoreAt
      cases written
      exact ⟨kind, address, current, stored, store, rfl, found, ran, rfl⟩
  · cases assigns

namespace Value

variable {kind : StoredKind} {address : Nat} {key : String} {current source stored : Value}
  {after : Store}

/-- The entry is written inside the dictionary, or it has no cell. So the dictionary stays
as it is, and so does all that is ranked above it. -/
theorem assign_entry (sound : store.Sound allowed) {rank : Nat → Nat}
    (ranked : store.RankedBy rank) (within : source.Within allowed store.size)
    (found : (store.dictionary? (.stored kind address)).bind (·.get? key) = some current)
    (assigned : (current.assign source).run.run store = (.ok stored, after)) :
    ∀ owner < store.size, rank address ≤ rank owner → after.cell? owner = store.cell? owner := by
  obtain ⟨entries, atParent, atKey⟩ := Option.bind_eq_some_iff.mp found
  obtain ⟨-, holds⟩ := (assign_yields sound (sound.entry_within found) within).of_run assigned
  intro owner old above
  refine (holds stored rfl).spares owner old fun refers => ?_
  have below := ranked.lt_of_part (Store.dictionary?_eq_some atParent)
    (Dictionary.get?_mem_values atKey) refers
  exact Nat.not_lt.mpr above below

/-- All values of a dictionary-shaped kind have one property and one function. -/
theorem HasEntry.of_dictionary {entry : Value} (shaped : kind.isDictionary)
    (plain : key ≠ "size" ∧ key ≠ "insert")
    (found : (store.dictionary? (.stored kind address)).bind (·.get? key) = some entry) :
    (Value.stored kind address).HasEntry store key entry := by
  obtain ⟨noSize, noInsert⟩ := plain
  cases kind with
  | dictionary | host =>
      refine ⟨?_, ?_, found⟩
      · simpa [Value.kind, Kind.properties] using noSize
      · simpa [Value.kind, Kind.members, MemberFunction.name] using Ne.symm noInsert
  | _ => cases shaped

/-- The way to a dictionary and on to an entry of it leads to what is put there. -/
theorem Descends.put_entry (sound : store.Sound allowed) (within : source.Within allowed store.size)
    {root : Value} {segments : List Identifier} {key : Identifier}
    (descends : root.Descends store segments (.stored kind address)) (shaped : kind.isDictionary)
    (plain : key.name ≠ "size" ∧ key.name ≠ "insert")
    (found : (store.dictionary? (.stored kind address)).bind (·.get? key.name) = some current)
    (assigned : (current.assign source).run.run store = (.ok stored, after)) {written : Store}
    (writes : after.putEntry (.stored kind address) address key.name stored = written) :
    (written.dictionary? (.stored kind address)).bind (·.get? key.name) = some stored ∧
      root.Descends written (segments ++ [key]) stored := by
  obtain ⟨entries, atParent, -⟩ := Option.bind_eq_some_iff.mp found
  obtain ⟨rank, ranked⟩ := sound.ranked
  have above := assign_entry sound ranked within found assigned
  have inBounds : address < store.size :=
    (Array.getElem?_eq_some_iff.mp (Store.dictionary?_eq_some atParent)).1
  have stillThere : after.dictionary? (.stored kind address) = some entries := by
    rw [← atParent]
    simp only [Store.dictionary?, above address inBounds (Nat.le_refl _)]
  have entry : (written.dictionary? (.stored kind address)).bind (·.get? key.name) = some stored :=
    writes ▸ Store.entry_putEntry stillThere
  refine ⟨entry, (descends.kept ranked rfl fun owner old higher => ?_).snoc
    (.of_dictionary shaped plain entry)⟩
  have apart : address ≠ owner := by
    rintro rfl
    exact Nat.lt_irrefl _ higher
  rw [← writes, Store.cell?_putEntry_other apart, above owner old (Nat.le_of_lt higher)]

theorem Descends.resolves {machine : Machine} {head : Identifier} {tail : List Identifier}
    {root last : Value} (looked : machine.scopes.lookup? head.name = some root)
    (descends : root.Descends machine.store tail last) :
    (resolve head tail).Returns machine last machine := by
  unfold RunM.Returns
  rw [run_resolve, looked]
  exact descends.returns

end Value

/-! ## Assignments to entries -/

theorem Path.segments_of_splitLast {path : Path} {before : List Identifier} {last : Identifier}
    (split : path.splitLast = (before, last)) : path.segments = before ++ [last] := by
  cases split
  exact (List.dropLast_append_getLast _).symm

/-- Once `p.k = e` was executed, where `p` leads to a dictionary-shaped value, the path
`p.k` reads what the assignment put under `k`, unless `k` is the name of a property or
function of dictionaries. -/
theorem assigned_entry_read {depth : Nat} {context : Context} {target : Path}
    {head key : Identifier} {tail : List Identifier} {expr : Expr} {span : Span}
    {machine supplied middle final : Machine} {source : Value} {kind : StoredKind} {address : Nat}
    (sound : machine.Sound fun _ => True) (split : target.splitLast = (head :: tail, key))
    (supplies : Site.Supplies
      ⟨depth + 1, context, .statement (.assignment target expr span), machine⟩ source supplied)
    (executes : (execute (depth + 1) context (.assignment target expr span)).Returns machine ()
      final)
    (leads : (resolve head tail).Returns supplied (.stored kind address) middle)
    (shaped : kind.isDictionary) (plain : key.name ≠ "size" ∧ key.name ≠ "insert") :
    ∃ current stored store,
      (supplied.store.dictionary? (.stored kind address)).bind (·.get? key.name) = some current ∧
      (current.assign source).run.run supplied.store = (.ok stored, store) ∧
      (final.store.dictionary? (.stored kind address)).bind (·.get? key.name) = some stored ∧
      ∀ depth context,
        (evaluate (depth + 1) context (.path target)).Returns final stored final := by
  obtain ⟨suppliedSound, within⟩ :=
    supplies.sound (fun _ _ _ _ _ _ => trivial) ⟨sound, fun _ _ => trivial⟩
  have assigns := supplies.assignTarget executes
  simp only [assignTarget, split] at assigns
  obtain ⟨_, _, current, stored, store, same, found, assigned, rfl⟩ :=
    (assigns.rest leads).assignEntry
  cases same
  -- The way to the dictionary goes through entries, so that it changed nothing.
  obtain ⟨root, looked, follows⟩ := leads.path
  obtain ⟨entries, atParent, -⟩ := Option.bind_eq_some_iff.mp found
  obtain ⟨descends, rfl⟩ := Value.followPath_descends follows (by simp [atParent])
  obtain ⟨entry, reaches⟩ :=
    descends.put_entry suppliedSound.store within shaped plain found assigned rfl
  refine ⟨current, stored, store, found, assigned, entry, fun depth context => ?_⟩
  obtain ⟨rfl, sameTail⟩ := List.cons.inj (Path.segments_of_splitLast split)
  unfold evaluate
  exact Value.Descends.resolves looked (sameTail ▸ reaches)

/-- The path `d.inner.key`. -/
def innerPath (key : String) : Path :=
  ⟨⟨"d", .origin⟩, [⟨"inner", .origin⟩, ⟨key, .origin⟩], .origin⟩

/-- The assignment `d.inner.key = 7`. -/
def innerAssignment (key : String) : Statement :=
  .assignment (innerPath key) (.literal (.integer 7) .origin) .origin

/-- Assigns to an entry deep inside a dictionary: `d : dictionary = (inner = (key = 1))`
comes before the assignment. -/
def innerRun (key : String) : Run :=
  let name (text : String) : Identifier := ⟨text, .origin⟩
  let inner : Expr := .dictionary [⟨name key, .literal (.integer 1) .origin, .origin⟩] .origin
  .ofStatements
    [.declaration (name "d") (name "dictionary")
      (some (.dictionary [⟨name "inner", inner, .origin⟩] .origin)) .origin,
    innerAssignment key] 5

/-- The entry `count` reads as it was assigned. -/
theorem innerAssignment_read :
    ∃ (final : Machine) (stored : Value), final.store.integer? stored = some 7 ∧
      ∀ depth context,
        (evaluate (depth + 1) context (.path (innerPath "count"))).Returns final stored final := by
  obtain ⟨machine, performed, source, supplied, middle, parent, final, supplies, executes, leads,
      shaped, written⟩ : ∃ machine,
      (innerRun "count").Performs ⟨5, (innerRun "count").root.context,
        .statement (innerAssignment "count"), machine⟩ ∧ ∃ source supplied middle parent final,
      Site.Supplies ⟨5, (innerRun "count").root.context, .statement (innerAssignment "count"),
        machine⟩ source supplied ∧
      (execute 5 (innerRun "count").root.context (innerAssignment "count")).Returns machine ()
        final ∧
      (resolve ⟨"d", .origin⟩ [⟨"inner", .origin⟩]).Returns supplied parent middle ∧
      parent.kind = .stored .dictionary ∧
      ((final.store.dictionary? parent).bind (·.get? "count")).bind final.store.integer? = some 7 :=
    ⟨_, Run.performs_statement 1 rfl (.unit_of_isSome (by decide +kernel)) (by decide +kernel),
        _, _, _, _, _,
      ⟨_, .value rfl (.unit_of_isSome (by decide +kernel)), .of_isSome (by decide +kernel)⟩,
      .unit_of_isSome (by decide +kernel), .of_isSome (by decide +kernel), by decide +kernel,
      by decide +kernel⟩
  obtain ⟨address, rfl⟩ : ∃ address, parent = .stored .dictionary address := by
    cases parent with
    | stored kind address => exact ⟨address, by rw [Kind.stored.inj shaped]⟩
    | _ => cases shaped
  have sound := performed.sound (fun _ _ _ _ _ _ => trivial) fun _ _ _ _ => trivial
  obtain ⟨current, stored, store, -, -, entry, reads⟩ := assigned_entry_read sound.machine rfl
    supplies executes leads rfl (by decide)
  have same : (final.store.dictionary? (.stored .dictionary address)).bind (·.get? "count") =
      some stored := entry
  rw [same] at written
  exact ⟨final, stored, written, reads⟩

/-- An entry `size` is assigned too, but the path to it reads the number of entries. -/
theorem innerAssignment_hidden :
    ∃ (machine supplied middle final after : Machine) (source parent read : Value),
      (innerRun "size").Performs ⟨5, (innerRun "size").root.context,
        .statement (innerAssignment "size"), machine⟩ ∧
      Site.Supplies ⟨5, (innerRun "size").root.context, .statement (innerAssignment "size"),
        machine⟩ source supplied ∧
      (execute 5 (innerRun "size").root.context (innerAssignment "size")).Returns machine ()
        final ∧
      (resolve ⟨"d", .origin⟩ [⟨"inner", .origin⟩]).Returns supplied parent middle ∧
      parent.kind = .stored .dictionary ∧
      ((final.store.dictionary? parent).bind (·.get? "size")).bind final.store.integer? = some 7 ∧
      (evaluate 1 (innerRun "size").root.context (.path (innerPath "size"))).Returns final read
        after ∧
      after.store.integer? read = some 1 :=
  ⟨_, _, _, _, _, _, _, _,
    Run.performs_statement 1 rfl (.unit_of_isSome (by decide +kernel)) (by decide +kernel),
    ⟨_, .value rfl (.unit_of_isSome (by decide +kernel)), .of_isSome (by decide +kernel)⟩,
    .unit_of_isSome (by decide +kernel), .of_isSome (by decide +kernel), by decide +kernel,
    by decide +kernel, .of_isSome (by decide +kernel), by decide +kernel⟩

end FlowScript
