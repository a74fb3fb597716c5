import FlowScript.Proofs.Scope.Stack
import FlowScript.Proofs.Storage.Contents
import FlowScript.Value.Json
import Mathlib.Algebra.Ring.Int.Defs
import Mathlib.Data.Finset.Card
import Mathlib.Data.Finset.Range
import Mathlib.Logic.Relation

/-!
# Plain data to JSON and back

Plain data survives the way to JSON and back, and so does JSON the way to plain
data and back. Both follow from one relation between values and JSON, which
reading establishes and writing respects.
-/

set_option autoImplicit false

namespace FlowScript

/-! ## Plain data -/

/-- A scalar with a JSON form of its own. -/
def Scalar.isPlain : Scalar → Bool
  | .boolean _ | .integer _ | .string _ => true
  | .real value => value.isFinite
  | .duration _ | .timePoint _ => false

/-- Nothing, a boolean, an integer, a finite real, a string, or an array or
dictionary of such values. No key of a dictionary comes twice. -/
inductive Value.Plain (store : Store) : Value → Prop where
  | void : Plain store .void
  | scalar {address : Nat} {scalar : Scalar} : store.cell? address = some (.scalar scalar) →
      scalar.isPlain → Plain store (.stored scalar.kind address)
  | array {address : Nat} {items : List Value} : store.cell? address = some (.array items) →
      (∀ item ∈ items, Plain store item) → Plain store (.stored .array address)
  | dictionary {address : Nat} {entries : Dictionary Value} :
      store.cell? address = some (.dictionary entries) → entries.keys.Nodup →
      (∀ value ∈ entries.values, Plain store value) → Plain store (.stored .dictionary address)

/-- JSON whose integers fit in a signed word, whose other numbers are finite and
whose objects have no key twice. -/
inductive Json.Portable : Json → Prop where
  | null : Portable .null
  | bool {value : Bool} : Portable (.bool value)
  | integer {value : Int} : -(2 ^ 63) ≤ value → value < 2 ^ 63 → Portable (.integer value)
  | real {value : Float} : value.isFinite → Portable (.real value)
  | string {value : String} : Portable (.string value)
  | array {items : List Json} : (∀ item ∈ items, Portable item) → Portable (.array items)
  | object {members : List (String × Json)} : (members.map (·.1)).Nodup →
      (∀ json ∈ members.map (·.2), Portable json) → Portable (.object members)

/-- A value has exactly the contents of a JSON value. -/
inductive Value.Shows (store : Store) : Value → Json → Prop where
  | void : Shows store .void .null
  | scalar {kind : StoredKind} {address : Nat} {scalar : Scalar} {json : Json} :
      store.cell? address = some (.scalar scalar) → scalar.isPlain → kind = scalar.kind →
      json = scalarToJson scalar → Shows store (.stored kind address) json
  | array {address : Nat} {items : List Value} {jsons : List Json} :
      store.cell? address = some (.array items) → items.length = jsons.length →
      (∀ pair ∈ items.zip jsons, Shows store pair.1 pair.2) →
      Shows store (.stored .array address) (.array jsons)
  | dictionary {address : Nat} {entries : Dictionary Value} {members : List (String × Json)} :
      store.cell? address = some (.dictionary entries) → entries.keys.Nodup →
      entries.keys = members.map (·.1) →
      (∀ pair ∈ entries.values.zip (members.map (·.2)), Shows store pair.1 pair.2) →
      Shows store (.stored .dictionary address) (.object members)

/-! ## Depth of plain data -/

namespace Store

def HasPart (store : Store) (owner part : Nat) : Prop := part ∈ store.parts owner

/-- How many cells a cell leads to. -/
noncomputable def reachCount (store : Store) (address : Nat) : Nat :=
  open scoped Classical in
  ((Finset.range store.size).filter (Relation.TransGen store.HasPart address)).card

theorem reachCount_lt_walkDepth (store : Store) (address : Nat) :
    store.reachCount address < store.walkDepth := by
  classical
  unfold reachCount
  have bounded := Finset.card_filter_le (Finset.range store.size)
    (Relation.TransGen store.HasPart address)
  rw [Finset.card_range] at bounded
  exact Nat.lt_succ_of_le bounded

theorem not_reaches_self {store : Store} {address : Nat}
    (grounded : Acc (fun part owner => store.HasPart owner part) address) :
    ¬ Relation.TransGen store.HasPart address address := by
  induction grounded with
  | intro address _ ih =>
      intro reaches
      obtain ⟨part, isPart, back⟩ := Relation.TransGen.head'_iff.mp reaches
      exact ih part isPart (Relation.TransGen.tail' back isPart)

theorem reachCount_lt {store : Store} {owner part : Nat} (isPart : store.HasPart owner part)
    (inBounds : part < store.size)
    (grounded : Acc (fun part owner => store.HasPart owner part) part) :
    store.reachCount part < store.reachCount owner := by
  -- What the part leads to, the owner leads to as well, and to the part besides.
  classical
  unfold reachCount
  apply Finset.card_lt_card
  rw [Finset.ssubset_iff_of_subset]
  · exact ⟨part, by simp [inBounds, Relation.TransGen.single isPart],
      by simp [not_reaches_self grounded]⟩
  · intro other member
    rw [Finset.mem_filter] at member ⊢
    exact ⟨member.1, member.2.head isPart⟩

end Store

namespace Value

variable {store : Store} {value : Value}

/-- Below plain data there is no way back to a cell. -/
theorem Plain.grounded (plain : value.Plain store) :
    ∀ address, value.address? = some address →
      address < store.size ∧ Acc (fun part owner => store.HasPart owner part) address := by
  have ground : ∀ {address : Nat} {cell : Cell}, store.cell? address = some cell →
      (∀ part ∈ cell.values, ∀ below, part.address? = some below →
        below < store.size ∧ Acc (fun part owner => store.HasPart owner part) below) →
      address < store.size ∧ Acc (fun part owner => store.HasPart owner part) address := by
    intro address cell found parts
    refine ⟨(Array.getElem?_eq_some_iff.mp found).1, .intro _ fun below isPart => ?_⟩
    have inCell : below ∈ cell.parts := Store.parts_of_cell found ▸ isPart
    obtain ⟨part, member, refers⟩ := mem_addresses.mp inCell
    exact (parts part member below refers).2
  intro address refers
  induction plain generalizing address with
  | void => cases refers
  | scalar found =>
      cases refers
      exact ground found (by simp [Cell.values])
  | array found _ ih =>
      cases refers
      exact ground found ih
  | dictionary found _ _ ih =>
      cases refers
      exact ground found ih

/-! ## Writing -/

theorem mem_zip_map {α β : Type} {items : List α} {f : α → β} {pair : α × β}
    (member : pair ∈ items.zip (items.map f)) : pair.1 ∈ items ∧ pair.2 = f pair.1 := by
  obtain ⟨index, found⟩ := List.mem_iff_getElem?.mp member
  obtain ⟨left, right⟩ := List.getElem?_zip_eq_some.mp found
  rw [List.getElem?_map, left] at right
  exact ⟨List.mem_of_getElem? left, (Option.some.inj right).symm⟩

/-- A walk that may go deeper than there are cells below shows all contents. -/
theorem Plain.shows_toJsonTo (plain : value.Plain store) {depth : Nat}
    (deep : ∀ address, value.address? = some address → store.reachCount address < depth) :
    value.Shows store (value.toJsonTo depth store) := by
  induction depth generalizing value with
  | zero =>
      cases plain with
      | void => exact .void
      | _ => exact absurd (deep _ rfl) (Nat.not_lt_zero _)
  | succ depth ih =>
      have below : ∀ {address : Nat} {cell : Cell}, store.cell? address = some cell →
          store.reachCount address < depth + 1 → ∀ part ∈ cell.values, part.Plain store →
          part.Shows store (part.toJsonTo depth store) := by
        intro address cell found within part member partPlain
        apply ih partPlain
        intro other refers
        have isPart : store.HasPart address other := Store.mem_parts found member refers
        obtain ⟨inBounds, grounded⟩ := partPlain.grounded other refers
        have fewer := Store.reachCount_lt isPart inBounds grounded
        omega
      cases plain with
      | void => exact .void
      | scalar found plain =>
          simp only [toJsonTo, found]
          exact .scalar found plain rfl rfl
      | array found parts =>
          simp only [toJsonTo, found]
          apply Shows.array found (by simp)
          intro pair member
          obtain ⟨inItems, same⟩ := mem_zip_map member
          rw [same]
          exact below found (deep _ rfl) pair.1 inItems (parts pair.1 inItems)
      | @dictionary address entries found once parts =>
          simp only [toJsonTo, found]
          apply Shows.dictionary found once (by simp [Dictionary.keys])
          intro pair member
          have jsons : (entries.entries.map fun entry =>
              (entry.1, toJsonTo depth store entry.2)).map (·.2) =
                entries.values.map (toJsonTo depth store) := by
            simp [Dictionary.values]
          rw [jsons] at member
          obtain ⟨inValues, same⟩ := mem_zip_map member
          rw [same]
          exact below found (deep _ rfl) pair.1 inValues (parts pair.1 inValues)

theorem Plain.shows_toJson (plain : value.Plain store) :
    value.Shows store (value.toJson store) :=
  plain.shows_toJsonTo fun address _ => store.reachCount_lt_walkDepth address

/-! ## What JSON says about a value -/

theorem mem_zip_of_mem {α β : Type} {left : List α} {right : List β}
    (same : left.length = right.length) :
    (∀ item ∈ left, ∃ pair ∈ left.zip right, pair.1 = item) ∧
      ∀ item ∈ right, ∃ pair ∈ left.zip right, pair.2 = item := by
  constructor
  · intro item member
    rw [← List.map_fst_zip (Nat.le_of_eq same)] at member
    simpa using member
  · intro item member
    rw [← List.map_snd_zip (Nat.le_of_eq same.symm)] at member
    simpa using member

theorem length_values_eq {entries : Dictionary Value} {members : List (String × Json)}
    (keys : entries.keys = members.map (·.1)) :
    entries.values.length = (members.map (·.2)).length := by
  simpa [Dictionary.keys, Dictionary.values] using congrArg List.length keys

theorem Shows.plain {json : Json} (shows : value.Shows store json) : value.Plain store := by
  induction shows with
  | void => exact .void
  | scalar found plain sameKind => exact sameKind ▸ .scalar found plain
  | array found sameLength _ ih =>
      apply Plain.array found
      intro item member
      obtain ⟨pair, inZip, rfl⟩ := (mem_zip_of_mem sameLength).1 item member
      exact ih pair inZip
  | dictionary found once keys _ ih =>
      apply Plain.dictionary found once
      intro item member
      obtain ⟨pair, inZip, rfl⟩ := (mem_zip_of_mem (length_values_eq keys)).1 item member
      exact ih pair inZip

theorem scalarToJson_portable {scalar : Scalar} (plain : scalar.isPlain) :
    (scalarToJson scalar).Portable := by
  cases scalar with
  | boolean => exact .bool
  | integer value =>
      exact .integer (by simpa using value.le_toInt) (by simpa using value.toInt_lt)
  | real value =>
      have finite : value.isFinite = true := plain
      simp only [scalarToJson, finite, if_true]
      exact .real finite
  | string => exact .string
  | duration => cases plain
  | timePoint => cases plain

theorem Shows.portable {json : Json} (shows : value.Shows store json) : json.Portable := by
  induction shows with
  | void => exact .null
  | scalar _ plain _ sameJson => exact sameJson ▸ scalarToJson_portable plain
  | array _ sameLength _ ih =>
      apply Json.Portable.array
      intro item member
      obtain ⟨pair, inZip, rfl⟩ := (mem_zip_of_mem sameLength).2 item member
      exact ih pair inZip
  | dictionary _ once keys _ ih =>
      apply Json.Portable.object (keys ▸ once)
      intro item member
      obtain ⟨pair, inZip, rfl⟩ := (mem_zip_of_mem (length_values_eq keys)).2 item member
      exact ih pair inZip

theorem Shows.mono {json : Json} (shows : value.Shows store json) {grown : Store}
    (keeps : store.Keeps grown) : value.Shows grown json := by
  induction shows with
  | void => exact .void
  | scalar found plain sameKind sameJson =>
      exact .scalar (keeps _ _ found) plain sameKind sameJson
  | array found sameLength _ ih => exact .array (keeps _ _ found) sameLength ih
  | dictionary found once keys _ ih => exact .dictionary (keeps _ _ found) once keys ih

theorem eq_of_zip {α β : Type} {items : List α} {left right : List β}
    (leftLength : items.length = left.length) (rightLength : items.length = right.length)
    (agree : ∀ pair ∈ items.zip left, ∀ other, (pair.1, other) ∈ items.zip right →
      pair.2 = other) : left = right := by
  apply List.ext_getElem (leftLength.symm.trans rightLength)
  intro index inLeft inRight
  have inItems : index < items.length := leftLength ▸ inLeft
  apply agree (items[index], left[index]) _ right[index] _
  · exact List.mem_iff_getElem.mpr ⟨index, by simp; omega, by simp⟩
  · exact List.mem_iff_getElem.mpr ⟨index, by simp; omega, by simp⟩

/-- Two lists that are each paired with a third one are paired through it. -/
theorem zip_through {α β γ : Type} {left : List α} {right : List β} {middle : List γ}
    (leftLength : left.length = middle.length) {pair : α × β} (member : pair ∈ left.zip right) :
    ∃ item, (pair.1, item) ∈ left.zip middle ∧ (pair.2, item) ∈ right.zip middle := by
  obtain ⟨index, found⟩ := List.mem_iff_getElem?.mp member
  obtain ⟨atLeft, atRight⟩ := List.getElem?_zip_eq_some.mp found
  have inMiddle : index < middle.length := by
    rw [← leftLength]
    exact (List.getElem?_eq_some_iff.mp atLeft).1
  have atMiddle : middle[index]? = some middle[index] := List.getElem?_eq_getElem inMiddle
  exact ⟨middle[index],
    List.mem_iff_getElem?.mpr ⟨index, List.getElem?_zip_eq_some.mpr ⟨atLeft, atMiddle⟩⟩,
    List.mem_iff_getElem?.mpr ⟨index, List.getElem?_zip_eq_some.mpr ⟨atRight, atMiddle⟩⟩⟩

theorem Shows.unique {json other : Json} (shows : value.Shows store json)
    (alsoShows : value.Shows store other) : json = other := by
  induction shows generalizing other with
  | void =>
      cases alsoShows
      rfl
  | scalar found _ _ same =>
      cases alsoShows with
      | scalar alsoFound _ _ alsoSame =>
          cases found.symm.trans alsoFound
          rw [same, alsoSame]
      | array alsoFound => cases found.symm.trans alsoFound
      | dictionary alsoFound => cases found.symm.trans alsoFound
  | array found sameLength _ ih =>
      cases alsoShows with
      | scalar alsoFound => cases found.symm.trans alsoFound
      | array alsoFound alsoLength parts =>
          cases found.symm.trans alsoFound
          rw [eq_of_zip sameLength alsoLength fun pair member other otherMember =>
            ih pair member (parts _ otherMember)]
  | dictionary found _ keys _ ih =>
      cases alsoShows with
      | scalar alsoFound => cases found.symm.trans alsoFound
      | dictionary alsoFound _ alsoKeys parts =>
          cases found.symm.trans alsoFound
          have sameValues := eq_of_zip (length_values_eq keys) (length_values_eq alsoKeys)
            fun pair member other otherMember => ih pair member (parts _ otherMember)
          rw [List.zip_of_prod keys.symm sameValues, ← List.zip_of_prod alsoKeys.symm rfl]

/-- Scalars with a JSON form of their own are told apart by it. -/
theorem scalarToJson_injective {left right : Scalar} (leftPlain : left.isPlain)
    (rightPlain : right.isPlain) (same : scalarToJson left = scalarToJson right) :
    left = right := by
  have finite : ∀ {value : Float}, (Scalar.real value).isPlain →
      scalarToJson (.real value) = .real value :=
    fun plain => if_pos plain
  cases left <;> cases right <;>
    simp_all [scalarToJson, Int64.toInt_inj, Scalar.isPlain]

theorem scalarToJson_atomic {scalar : Scalar} (plain : scalar.isPlain) :
    scalarToJson scalar ≠ .null ∧ (∀ items, scalarToJson scalar ≠ .array items) ∧
      ∀ members, scalarToJson scalar ≠ .object members := by
  cases scalar <;> simp_all [scalarToJson, Scalar.isPlain]

/-- Values that show the same JSON have the same contents. -/
theorem Shows.alike {json : Json} (shows : value.Shows store json) {otherStore : Store}
    {other : Value} (otherShows : other.Shows otherStore json) :
    value.Alike store otherStore other := by
  induction shows generalizing other with
  | void =>
      cases otherShows with
      | void => exact .bare rfl
      | scalar _ plain _ same => exact absurd same.symm (scalarToJson_atomic plain).1
  | scalar found plain sameKind same =>
      obtain ⟨notNull, notArray, notObject⟩ := scalarToJson_atomic plain
      cases otherShows with
      | void => exact absurd same.symm notNull
      | array => exact absurd same.symm (notArray _)
      | dictionary => exact absurd same.symm (notObject _)
      | scalar otherFound otherPlain otherKind otherSame =>
          cases scalarToJson_injective plain otherPlain (same.symm.trans otherSame)
          rw [sameKind, otherKind]
          exact .stored found otherFound rfl (by simp [Cell.values])
  | array found sameLength _ ih =>
      cases otherShows with
      | scalar _ plain _ same => exact absurd same.symm ((scalarToJson_atomic plain).2.1 _)
      | array otherFound otherLength otherParts =>
          have sameForm := congrArg Cell.Form.array (sameLength.trans otherLength.symm)
          apply Alike.stored found otherFound sameForm
          intro pair member
          obtain ⟨json, atLeft, atRight⟩ := zip_through sameLength member
          exact ih _ atLeft (otherParts _ atRight)
  | dictionary found _ keys _ ih =>
      cases otherShows with
      | scalar _ plain _ same => exact absurd same.symm ((scalarToJson_atomic plain).2.2 _)
      | dictionary otherFound _ otherKeys otherParts =>
          have sameForm := congrArg Cell.Form.dictionary (keys.trans otherKeys.symm)
          apply Alike.stored found otherFound sameForm
          intro pair member
          obtain ⟨json, atLeft, atRight⟩ := zip_through (length_values_eq keys) member
          exact ih _ atLeft (otherParts _ atRight)

/-! ## Reading -/

/-- A plain scalar is read back from its JSON form. -/
theorem newScalar_shows (store : Store) (scalar : Scalar) (plain : scalar.isPlain) :
    After (newScalar scalar) store fun value final =>
      value.Shows final (scalarToJson scalar) ∧ store.Keeps final :=
  ⟨.scalar (Store.cell?_push_new store _) plain rfl rfl, store.keeps_push _⟩

theorem ofJson_integer {value : Int} (low : -(2 ^ 63) ≤ value) (high : value < 2 ^ 63) :
    ∃ word : Int64, ofJson (.integer value) = newScalar (.integer word) ∧ word.toInt = value := by
  have fits : signedOfInt? value = some (Int64.ofInt value) :=
    if_pos ⟨by simp [maxSigned]; omega, by simp [maxSigned]; omega⟩
  exact ⟨Int64.ofInt value, by simp only [ofJson, fits], toInt_of_signedOfInt? fits⟩

end Value

namespace Value

variable {store : Store}

mutual

/-- Reading gives a value that shows the JSON it was read from. -/
theorem ofJson_shows {store : Store} (json : Json) (portable : json.Portable) :
    After (ofJson json) store fun value final => value.Shows final json ∧ store.Keeps final := by
  cases json with
  | null => exact ⟨.void, fun _ _ found => found⟩
  | bool value => exact newScalar_shows store (.boolean value) rfl
  | integer value =>
      cases portable with
      | integer low high =>
          obtain ⟨word, read, same⟩ := ofJson_integer low high
          rw [read, ← same]
          exact newScalar_shows store (.integer word) rfl
  | real value =>
      cases portable with
      | real finite =>
          have written : scalarToJson (.real value) = .real value := if_pos finite
          have shown := newScalar_shows store (.real value) finite
          rw [written] at shown
          exact shown
  | string value => exact newScalar_shows store (.string value) rfl
  | array items =>
      cases portable with
      | array parts =>
          simp only [ofJson, after_bind]
          apply (ofJsonItems_shows items parts).imp
          intro values middle ⟨sameLength, shown, keeps⟩
          have pushed := middle.keeps_push (.array values)
          exact ⟨.array (Store.cell?_push_new middle _) sameLength
            fun pair member => (shown pair member).mono pushed, keeps.trans pushed⟩
  | object members =>
      cases portable with
      | object once parts =>
          simp only [ofJson, after_bind]
          apply (ofJsonMembers_shows members parts).imp
          intro entries middle ⟨sameKeys, shown, keeps⟩
          have entriesOnce : (entries.map (·.1)).Nodup := sameKeys ▸ once
          rw [Dictionary.ofList_of_nodup entriesOnce]
          have pushed := middle.keeps_push (.dictionary ⟨entries⟩)
          exact ⟨.dictionary (Store.cell?_push_new middle _) entriesOnce sameKeys
            fun pair member => (shown pair member).mono pushed, keeps.trans pushed⟩

theorem ofJsonItems_shows {store : Store} (items : List Json)
    (portable : ∀ item ∈ items, item.Portable) :
    After (ofJsonItems items) store fun values final =>
      values.length = items.length ∧
        (∀ pair ∈ values.zip items, pair.1.Shows final pair.2) ∧ store.Keeps final := by
  cases items with
  | nil => exact ⟨rfl, by simp, fun _ _ found => found⟩
  | cons item rest =>
      simp only [ofJsonItems, after_bind, after_pure]
      apply (ofJson_shows item (portable item List.mem_cons_self)).imp
      intro value middle ⟨shown, keeps⟩
      apply (ofJsonItems_shows rest
        fun other member => portable other (List.mem_cons_of_mem _ member)).imp
      intro values final ⟨sameLength, restShown, restKeeps⟩
      refine ⟨congrArg Nat.succ sameLength, ?_, keeps.trans restKeeps⟩
      intro pair member
      rcases List.mem_cons.mp member with rfl | inRest
      · exact shown.mono restKeeps
      · exact restShown pair inRest

theorem ofJsonMembers_shows {store : Store} (members : List (String × Json))
    (portable : ∀ json ∈ members.map (·.2), json.Portable) :
    After (ofJsonMembers members) store fun entries final =>
      entries.map (·.1) = members.map (·.1) ∧
        (∀ pair ∈ (entries.map (·.2)).zip (members.map (·.2)), pair.1.Shows final pair.2) ∧
        store.Keeps final := by
  cases members with
  | nil => exact ⟨rfl, by simp, fun _ _ found => found⟩
  | cons entry rest =>
      obtain ⟨key, json⟩ := entry
      simp only [ofJsonMembers, after_bind, after_pure]
      apply (ofJson_shows json (portable json List.mem_cons_self)).imp
      intro value middle ⟨shown, keeps⟩
      apply (ofJsonMembers_shows rest
        fun other member => portable other (List.mem_cons_of_mem _ member)).imp
      intro entries final ⟨sameKeys, restShown, restKeeps⟩
      refine ⟨congrArg (key :: ·) sameKeys, ?_, keeps.trans restKeeps⟩
      intro pair member
      rcases List.mem_cons.mp member with rfl | inRest
      · exact shown.mono restKeeps
      · exact restShown pair inRest

end

end Value

/-- Plain data that is written as JSON and read back, into any store, has the
contents it had: entries in the same order, and the very same reals. JSON that is
read and written again is unchanged. -/
theorem json_round_trip :
    (∀ (store : Store) (value : Value), value.Plain store → ∀ other : Store,
      After (Value.ofJson (value.toJson store)) other fun result final =>
        value.Alike store final result) ∧
    ∀ json : Json, json.Portable → ∀ store : Store,
      After (Value.ofJson json) store fun value final => value.toJson final = json := by
  constructor
  · intro store value plain other
    have shows := plain.shows_toJson
    apply (Value.ofJson_shows _ shows.portable).imp
    intro result final ⟨resultShows, _⟩
    exact shows.alike resultShows
  · intro json portable store
    apply (Value.ofJson_shows json portable).imp
    intro value final ⟨shows, _⟩
    exact shows.plain.shows_toJson.unique shows

/-- The JSON text `{"list":[null,true,-1],"name":"x"}`. -/
def nestedJson : Json :=
  .object [("list", .array [.null, .bool true, .integer (-1)]), ("name", .string "x")]

theorem nestedJson_portable : nestedJson.Portable := by
  have items : ∀ item ∈ [Json.null, .bool true, .integer (-1)], item.Portable := by
    simp only [List.mem_cons, List.not_mem_nil, or_false]
    rintro item (rfl | rfl | rfl)
    · exact .null
    · exact .bool
    · exact .integer (by decide) (by decide)
  apply Json.Portable.object (by decide)
  simp only [List.map_cons, List.map_nil, List.mem_cons, List.not_mem_nil, or_false]
  rintro json (rfl | rfl)
  · exact .array items
  · exact .string

/-- The value read from the text keeps its contents, and the text comes back. -/
theorem nestedJson_round_trip :
    (After (Value.ofJson nestedJson) .empty fun value store =>
      After (Value.ofJson (value.toJson store)) .empty fun result final =>
        value.Alike store final result) ∧
    After (Value.ofJson nestedJson) .empty fun value final => value.toJson final = nestedJson := by
  obtain ⟨values, texts⟩ := json_round_trip
  constructor
  · apply (Value.ofJson_shows nestedJson nestedJson_portable).imp
    intro value store ⟨shows, _⟩
    exact values store value shows.plain .empty
  · exact texts nestedJson nestedJson_portable .empty

end FlowScript
