import FlowScript.Proofs.Guard.Cell
import FlowScript.Proofs.Run.Closure
import FlowScript.Proofs.Storage.Frame
import FlowScript.Proofs.Value.Equality

/-!
# Each key once

Insertion alone puts keys into a dictionary, and it never puts one in twice. Everything else
that makes a dictionary copies one that there is, keys and all, or starts from an empty one.
So all dictionaries of a run have each of their keys once, in the order in which the keys were
first inserted.
-/

set_option autoImplicit false

namespace FlowScript

/-! ## Cells -/

theorem Cell.KeysOnce.of_form {cell copy : Cell} (once : cell.KeysOnce)
    (same : cell.form = copy.form) : copy.KeysOnce := by
  cases copy with
  | dictionary entries =>
      cases cell with
      | dictionary others =>
          have keys : others.keys = entries.keys := Cell.Form.dictionary.inj same
          have othersOnce : others.keys.Nodup := once
          change entries.keys.Nodup
          exact keys ▸ othersOnce
      | scalar | array => cases same
  | scalar | array => trivial

namespace Store.KeysOnce

variable {store : Store} (once : store.KeysOnce) {cell : Cell}

include once

theorem push (cellOnce : cell.KeysOnce) : (store.push cell).KeysOnce := by
  intro address other found
  rcases Nat.lt_trichotomy address store.size with old | rfl | beyond
  · exact once address other (cell?_push_old old ▸ found)
  · rw [cell?_push_new] at found
    cases found
    exact cellOnce
  · have inBounds : address < (store.push cell).size := (Array.getElem?_eq_some_iff.mp found).1
    rw [size_push] at inBounds
    omega

theorem write (address : Nat) (cellOnce : cell.KeysOnce) : (store.write address cell).KeysOnce := by
  intro other written found
  by_cases same : address = other
  · subst same
    have inBounds : address < store.size := by
      rw [← size_write store address cell]
      exact (Array.getElem?_eq_some_iff.mp found).1
    rw [cell?_write_same cell inBounds] at found
    cases found
    exact cellOnce
  · rw [cell?_write_other store cell same] at found
    exact once other written found

end Store.KeysOnce

/-- Cells whose dictionaries have each key once. Nothing is asked of values. -/
def keysOnce : WriteGuard where
  holds := Store.KeysOnce
  good _ := True
  fits := Cell.KeysOnce
  void := trivial
  error _ _ _ := trivial
  member_iff := Iff.rfl
  scalar _ := trivial
  array _ := trivial
  empty := List.nodup_nil
  insert once _ := Dictionary.nodup_keys_insert once _ _
  copy once same _ := once.of_form same
  values _ _ _ := trivial
  push once cellOnce := ⟨once.push cellOnce, fun _ => trivial⟩
  tag once := once
  write once _ cellOnce := once.write _ cellOnce
  cell once _ found := once _ _ found

/-! ## Operations and runs -/

theorem ValueOperation.perform_keysOnce (operation : ValueOperation) {store : Store}
    (once : store.KeysOnce) : After operation.perform.run store fun _ final => final.KeysOnce := by
  suffices keeps : keysOnce.HandsAny operation.perform fun _ => True from
    (keeps store once).imp fun _ _ ends => ends.1
  have answers : ∀ {α : Type} {action : StoreExceptM α} {post : α → Prop} {answer : α → Answer},
      keysOnce.HandsAny action post →
      keysOnce.HandsAny (action >>= fun result => pure (answer result)) fun _ => True :=
    fun keeps => .run_bind keeps fun _ _ => .run_pure trivial
  cases operation with
  | construct now kind argument => exact answers (keysOnce.hands_construct now kind trivial)
  | convert value target => exact answers (keysOnce.hands_convert trivial target)
  | unary op operand => exact answers (keysOnce.hands_unary op operand)
  | binary op left right => exact answers (keysOnce.hands_binary op left right)
  | property value name => exact answers (keysOnce.hands_property trivial name)
  | detach value => exact answers (.run_lift (keysOnce.hands_detach trivial))
  | assign target source => exact answers (keysOnce.hands_assign trivial trivial)
  | overwrite target source => exact answers (.run_lift (keysOnce.hands_overwrite trivial trivial))
  | callMember function receiver arguments =>
      exact answers (keysOnce.hands_callMember function trivial fun _ _ => trivial)
  | render value | equals left right | toJson value => exact answers .run_get

/-- Evaluation brings no key into a dictionary twice. -/
theorem develops_keysOnce :
    Develops fun before after => before.store.KeysOnce → after.store.KeysOnce where
  refl _ once := once
  trans first second once := second (first once)
  scopes _ _ once := once
  clock _ _ once := once
  logs _ _ once := once
  request _ _ once := once
  store _ step once := step.keeps FlowScript.keysOnce (fun _ => trivial) once

theorem initialMachine_keysOnce (instanceId : Int64) :
    (initialMachine instanceId).store.KeysOnce := by
  have empty : Store.empty.KeysOnce := fun _ _ found => nomatch found
  exact (keysOnce.hands_newScalar (.integer instanceId) _ empty).1

theorem Run.Reaches.keysOnce {run : Run} {machine : Machine} (reached : run.Reaches machine) :
    machine.store.KeysOnce :=
  develops_keysOnce.reaches reached (initialMachine_keysOnce run.instanceId)

/-! ## Rows of entries -/

/-- A dictionary literal inserts its values in the order in which they are written. -/
theorem evaluateEntries_records {evaluate : Expr → RunM Value} {entries : List Entry}
    {done result : Dictionary Value} {insertions : List (String × Value)} {machine final : Machine}
    (records : done.Records insertions)
    (returns : (evaluateEntries evaluate done entries).Returns machine result final) :
    ∃ inserted : List (String × Value), inserted.map (·.1) = entries.map (·.key.name) ∧
      result.Records (insertions ++ inserted) := by
  induction entries generalizing done insertions machine with
  | nil =>
      cases returns
      exact ⟨[], rfl, by rwa [List.append_nil]⟩
  | cons entry rest ih =>
      rw [evaluateEntries_cons] at returns
      obtain ⟨copy, middle, _, restReturns⟩ := returns.steps
      obtain ⟨inserted, names, recorded⟩ :=
        ih (records.insert entry.key.name copy) restReturns
      refine ⟨(entry.key.name, copy) :: inserted, ?_, ?_⟩
      · rw [List.map_cons, List.map_cons, names]
      · rwa [List.append_cons]

namespace Value

theorem ofJsonMembers_names (members : List (String × Json)) (store : Store) :
    After (ofJsonMembers members) store fun entries _ =>
      entries.map (·.1) = members.map (·.1) := by
  induction members generalizing store with
  | nil => rfl
  | cons member rest ih =>
      obtain ⟨name, json⟩ := member
      unfold ofJsonMembers
      rw [after_bind]
      refine (after_eq _).imp fun value middle _ => ?_
      rw [after_bind]
      exact (ih middle).imp fun entries _ names => congrArg (name :: ·) names

/-- A reply inserts its members in their order, even if some of them have a name in common. -/
theorem ofJsonObject_records (members : JsonObject) (store : Store) :
    After (ofJsonObject members) store fun entries _ =>
      ∃ inserted : List (String × Value), inserted.map (·.1) = members.map (·.1) ∧
        entries.Records inserted := by
  unfold ofJsonObject
  rw [after_bind]
  exact (ofJsonMembers_names members store).imp fun inserted _ names =>
    ⟨inserted, names, Dictionary.Records.empty.insertAll inserted⟩

end Value

/-! ## Insertion order -/

/-- Dictionaries are maps that keep the order of insertion. All that a run reaches have each
key once, and so has what an operation on values, a literal or a reply makes of them. From
there on, the keys stand in the order of their first insertion, the value inserted last is the
one that is found, and an insertion leaves the entries of other keys where they are. -/
theorem dictionaries_insertion_ordered :
    (∀ (run : Run) (machine : Machine), run.Reaches machine → machine.store.KeysOnce) ∧
    (∀ store : Store, store.KeysOnce →
      (∀ operation : ValueOperation,
        After operation.perform.run store fun _ final => final.KeysOnce) ∧
      (∀ json : Json, After (Value.ofJson json) store fun _ final => final.KeysOnce) ∧
      ∀ members : JsonObject, After (Value.ofJsonObject members) store fun entries final =>
        final.KeysOnce ∧ entries.keys.Nodup ∧ entries.keys = (members.map (·.1)).eraseDups) ∧
    (∀ (evaluate : Expr → RunM Value) (entries : List Entry) (machine final : Machine)
      (result : Dictionary Value),
      (evaluateEntries evaluate .empty entries).Returns machine result final →
      result.keys.Nodup ∧ result.keys = (entries.map (·.key.name)).eraseDups) ∧
    (∀ insertions : List (String × Value),
      let dictionary := Dictionary.empty.insertAll insertions
      dictionary.keys.Nodup ∧ dictionary.Records insertions) ∧
    (∀ dictionary : Dictionary Value, dictionary.keys.Nodup →
      ∀ insertions : List (String × Value),
        (dictionary.insertAll insertions).keys.Nodup ∧
        (dictionary.insertAll insertions).Records (dictionary.entries ++ insertions)) ∧
    ∀ (dictionary : Dictionary Value) (key other : String) (value held : Value) (index : Nat),
      other ≠ key →
      ((dictionary.insert key value).entries[index]? = some (other, held) ↔
        dictionary.entries[index]? = some (other, held)) := by
  refine ⟨fun _ _ reached => reached.keysOnce, fun store once => ⟨?_, ?_, ?_⟩, ?_, ?_, ?_, ?_⟩
  · exact fun operation => operation.perform_keysOnce once
  · exact fun json => (keysOnce.hands_ofJson json store once).imp fun _ _ ends => ends.1
  · intro members
    apply ((keysOnce.hands_ofJsonObject members store once).and
      (Value.ofJsonObject_records members store)).imp
    rintro entries final ⟨⟨finalOnce, entriesOnce⟩, inserted, names, records⟩
    exact ⟨finalOnce, entriesOnce, names ▸ records.keys⟩
  · intro evaluate entries machine final result returns
    obtain ⟨inserted, names, records⟩ := evaluateEntries_records .empty returns
    exact ⟨records.nodup, names ▸ records.keys⟩
  · intro insertions
    have records := Dictionary.Records.empty.insertAll insertions
    exact ⟨records.nodup, records⟩
  · intro dictionary once insertions
    have records := (Dictionary.Records.of_nodup once).insertAll insertions
    exact ⟨records.nodup, records⟩
  · intro dictionary key other value held index differs
    exact Dictionary.getElem?_entries_insert differs dictionary value held index

/-- Entries of which the last one repeats the first one's key. -/
def repeatedEntries : List Entry :=
  let entry (key : String) (value : Int64) : Entry :=
    ⟨⟨key, .origin⟩, .literal (.integer value) .origin, .origin⟩
  [entry "b" 1, entry "a" 2, entry "b" 3]

/-- Makes a dictionary `d` of the entries, and inserts at a key that is new and at one that is
there: `d.insert('c', 5)` and then `d.insert('a', 4)`. -/
def repeatedInsertion : Run :=
  let name (text : String) : Identifier := ⟨text, .origin⟩
  let insert (key : String) (value : Int64) : Statement :=
    .expression (.call ⟨name "d", [name "insert"], .origin⟩
      [⟨none, .literal (.string key) .origin, .origin⟩,
        ⟨none, .literal (.integer value) .origin, .origin⟩] .origin .origin) .origin
  .ofStatements
    [.declaration (name "d") (name "dictionary") (some (.dictionary repeatedEntries .origin))
      .origin, insert "c" 5, insert "a" 4] 5

/-- The keys of `d` are in the order of their first insertion, in the literal as in the end. -/
theorem repeatedInsertion_insertion_ordered :
    let store := repeatedInsertion.final.store
    let dictionary : Value := .stored .dictionary 10
    let twoKeys : Dictionary Value := ⟨[("b", .void), ("a", .builtin .print)]⟩
    store.KeysOnce ∧
    (store.dictionary? dictionary).map (·.keys) = some ["b", "a", "c"] ∧
    After (ValueOperation.detach dictionary).perform.run store (fun _ final => final.KeysOnce) ∧
    (∃ result final,
      (evaluateEntries (evaluate 1 repeatedInsertion.root.context) .empty repeatedEntries).Returns
        (initialMachine 0) result final ∧ result.keys = ["b", "a"]) ∧
    (twoKeys.insertAll [("c", .void), ("a", .void)]).keys = ["b", "a", "c"] ∧
    (twoKeys.insert "a" .void).entries[0]? = some ("b", .void) := by
  intro store dictionary twoKeys
  obtain ⟨reached, kept, literals, _, inserted, others⟩ := dictionaries_insertion_ordered
  have once := reached _ _ repeatedInsertion.reaches_final
  have twoOnce : twoKeys.keys.Nodup := by decide
  refine ⟨once, by decide +kernel, (kept store once).1 (.detach dictionary), ?_, ?_, ?_⟩
  · have returns : ∃ final,
        (evaluateEntries (evaluate 1 repeatedInsertion.root.context) .empty repeatedEntries).Returns
          (initialMachine 0) ⟨[("b", .stored .integer 6), ("a", .stored .integer 4)]⟩ final :=
      ⟨_, rfl⟩
    obtain ⟨final, returns⟩ := returns
    exact ⟨_, final, returns, (literals _ _ _ _ _ returns).2.trans (by decide)⟩
  · exact (inserted twoKeys twoOnce _).2.keys.trans (by decide)
  · exact (others twoKeys "a" "b" .void .void 0 (by decide)).mpr rfl

end FlowScript
