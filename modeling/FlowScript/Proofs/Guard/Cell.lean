import FlowScript.Proofs.Keeping
import FlowScript.Proofs.Storage.Contents
import FlowScript.Proofs.Storage.Operation

/-!
# What operations on values make of cells

Operations on values make plain cells and copies of cells, add an item or an entry to a cell,
look functions up on values, and otherwise only hand values on. So what holds of a store, of
its cells and of the values that are handed around goes from the operands to the result, and
to the store afterwards.
-/

set_option autoImplicit false

namespace FlowScript

/-- What holds of a store, of the cells in it, and of every value that is handed around. It
stays when a cell of that kind is added. -/
structure CellGuard where
  holds : Store → Prop
  good : Value → Prop
  fits : Cell → Prop
  void : good .void
  error (tag : Nat) (message : String) (location : Option Span) :
    good (.error tag message location)
  member_iff {function : MemberFunction} {receiver : Value} :
    good (.member function receiver) ↔ good receiver
  scalar (value : Scalar) : fits (.scalar value)
  array {items : List Value} : (∀ item ∈ items, good item) → fits (.array items)
  empty : fits (.dictionary .empty)
  insert {entries : Dictionary Value} {key : String} {value : Value} :
    fits (.dictionary entries) → good value → fits (.dictionary (entries.insert key value))
  /-- A copy has the form of the cell, with other values in it. -/
  copy {cell copy : Cell} : fits cell → cell.form = copy.form →
    (∀ value ∈ copy.values, good value) → fits copy
  values {cell : Cell} : fits cell → ∀ value ∈ cell.values, good value
  push {store : Store} {cell : Cell} : holds store → fits cell →
    holds (store.push cell) ∧ ∀ kind, good (.stored kind store.size)
  tag {store : Store} : holds store → holds { store with nextTag := store.nextTag + 1 }
  cell {store : Store} {kind : StoredKind} {address : Nat} {cell : Cell} : holds store →
    good (.stored kind address) → store.cell? address = some cell → fits cell

/-- It stays as well when such a cell is put in the place of another one. -/
structure WriteGuard extends CellGuard where
  write {store : Store} {kind : StoredKind} {address : Nat} {cell : Cell} : holds store →
    good (.stored kind address) → fits cell → holds (store.write address cell)

theorem CallArguments.require_good {good : Value → Prop} {arguments : CallArguments}
    (all : ∀ argument ∈ arguments.items, good argument.value) {name : String} {index : Nat}
    {value : Value} (required : arguments.require name index = .ok value) : good value := by
  unfold CallArguments.require at required
  split at required
  · next argument chosen =>
      cases required
      apply all
      unfold namedOrAt? at chosen
      split at chosen
      · next named =>
          cases chosen
          exact List.mem_of_find?_eq_some named
      · exact List.mem_of_getElem? (Option.filter_eq_some_iff.mp chosen).1
  · cases required

/-- A copy of a cell has the form of the cell, and what its values were changed into. -/
theorem Keeping.mapCell {holds : Store → Prop} {good : Value → Prop} {change : Value → StoreM Value}
    {cell : Cell} (changes : ∀ value ∈ cell.values, Keeping holds (change value) good) :
    Keeping holds (cell.mapM change) fun copy =>
      cell.form = copy.form ∧ ∀ value ∈ copy.values, good value := by
  intro store start
  apply (cell.after_mapM_zip (fun pairs final => holds final ∧ ∀ pair ∈ pairs, good pair.2)
    ⟨start, nofun⟩ ?_).imp
  · rintro copy final ⟨same, finalHolds, inside⟩
    refine ⟨finalHolds, same, fun value member => ?_⟩
    have second : (cell.values.zip copy.values).map (·.2) = copy.values :=
      List.map_snd_zip (Nat.le_of_eq (Cell.length_values same).symm)
    rw [← second] at member
    obtain ⟨pair, pairMember, rfl⟩ := List.mem_map.mp member
    exact inside pair pairMember
  · rintro done value middle member ⟨middleHolds, inside⟩
    apply (changes value member middle middleHolds).imp
    rintro result final ⟨finalHolds, resultGood⟩
    exact ⟨finalHolds, List.forall_mem_append.mpr
      ⟨inside, List.forall_mem_singleton.mpr resultGood⟩⟩

namespace CellGuard

variable (guard : CellGuard)

/-- A computation on the store hands on what is guarded. -/
def Hands {α : Type} (action : StoreM α) (post : α → Prop) : Prop :=
  Keeping guard.holds action post

/-- A computation that can fail hands on what is guarded. -/
def HandsAny {α : Type} (action : StoreExceptM α) (post : α → Prop) : Prop :=
  Keeping guard.holds action.run (Ends (fun _ => True) post)

/-! ## Cells of values -/

theorem fits_array {store : Store} (start : guard.holds store) {value : Value}
    (valueGood : guard.good value) {items : List Value}
    (found : store.array? value = some items) : guard.fits (.array items) := by
  cases value with
  | stored kind address => exact guard.cell start valueGood (Store.array?_eq_some found)
  | _ => cases found

theorem fits_dictionary {store : Store} (start : guard.holds store) {value : Value}
    (valueGood : guard.good value) {entries : Dictionary Value}
    (found : store.dictionary? value = some entries) : guard.fits (.dictionary entries) := by
  cases value with
  | stored kind address => exact guard.cell start valueGood (Store.dictionary?_eq_some found)
  | _ => cases found

theorem fits_ofList {entries : List (String × Value)}
    (inside : ∀ value ∈ entries.map (·.2), guard.good value) :
    guard.fits (.dictionary (.ofList entries)) := by
  suffices inserted : ∀ (rest : List (String × Value)) (done : Dictionary Value),
      (∀ value ∈ rest.map (·.2), guard.good value) → guard.fits (.dictionary done) →
      guard.fits (.dictionary
        (rest.foldl (fun dictionary entry => dictionary.insert entry.1 entry.2) done)) from
    inserted entries .empty inside guard.empty
  intro rest
  induction rest with
  | nil => exact fun _ _ fits => fits
  | cons entry rest ih =>
      intro done inside fits
      rw [List.map_cons, List.forall_mem_cons] at inside
      exact ih _ inside.2 (guard.insert fits inside.1)

theorem fits_initial (now : Instant) (kind : StoredKind) : guard.fits (Value.initial now kind) := by
  cases kind with
  | array => exact guard.array nofun
  | dictionary | host => exact guard.empty
  | boolean | integer | real | string | duration | timePoint => exact guard.scalar _

/-! ## New values -/

theorem hands_allocate (kind : StoredKind) {cell : Cell} (fits : guard.fits cell) :
    guard.Hands (allocate kind cell) guard.good :=
  fun _ start => ⟨(guard.push start fits).1, (guard.push start fits).2 kind⟩

theorem hands_newScalar (scalar : Scalar) : guard.Hands (newScalar scalar) guard.good :=
  guard.hands_allocate scalar.kind (guard.scalar scalar)

theorem hands_newError (message : String) (location : Option Span) :
    guard.Hands (newError message location) guard.good :=
  fun store start => ⟨guard.tag start, guard.error store.nextTag message location⟩

theorem hands_newInvocation {definition : Workflow} {arguments : CallArguments} {location : Span}
    (result : ∀ tag, guard.good (.invocation tag definition arguments location)) :
    guard.Hands (newInvocation definition arguments location) guard.good :=
  fun store start => ⟨guard.tag start, result store.nextTag⟩

/-! ## Copies -/

theorem hands_mapCell {change : Value → StoreM Value} {cell : Cell} (fits : guard.fits cell)
    (changes : ∀ value ∈ cell.values, guard.Hands (change value) guard.good) :
    guard.Hands (cell.mapM change) guard.fits := by
  intro store start
  apply (Keeping.mapCell changes store start).imp
  rintro copy final ⟨finalHolds, same, inside⟩
  exact ⟨finalHolds, guard.copy fits same inside⟩

theorem hands_detachTo (depth : Nat) {value : Value} (valueGood : guard.good value) :
    guard.Hands (value.detachTo depth) guard.good := by
  induction depth generalizing value with
  | zero => exact .pure valueGood
  | succ depth ih =>
      cases value with
      | stored kind address =>
          apply Keeping.bind .get
          intro store start
          split
          · next cell found =>
              have fits := guard.cell start valueGood found
              apply Keeping.bind (guard.hands_mapCell fits fun part member =>
                ih (guard.values fits part member))
              intro copy copyFits
              exact guard.hands_allocate kind copyFits
          · exact .pure valueGood
      | void | error | member | builtin | workflow | invocation => exact .pure valueGood

theorem hands_detach {value : Value} (valueGood : guard.good value) :
    guard.Hands value.detach guard.good :=
  .bind .get fun store _ => guard.hands_detachTo store.walkDepth valueGood

theorem hands_detachedCell? {value : Value} (valueGood : guard.good value) :
    guard.Hands value.detachedCell? fun copy => ∀ cell, copy = some cell → guard.fits cell := by
  apply Keeping.bind .get
  intro store start
  split
  · split
    · next address cell found =>
        have fits := guard.cell start valueGood found
        apply Keeping.bind (guard.hands_mapCell fits fun part member =>
          guard.hands_detachTo store.walkDepth (guard.values fits part member))
        intro copy copyFits
        apply Keeping.pure
        intro other same
        cases same
        exact copyFits
    · exact .pure nofun
  · exact .pure nofun

/-! ## Operators and conversions -/

theorem hands_binary (op : BinaryOperator) (left right : Value) :
    guard.HandsAny (left.binary op right) guard.good := by
  apply Keeping.run_bind .run_get
  intro store _
  split
  · exact .run_lift (guard.hands_newScalar _)
  · exact .run_throw trivial
  · exact .run_throw trivial

theorem hands_unary (op : UnaryOperator) (operand : Value) :
    guard.HandsAny (operand.unary op) guard.good := by
  apply Keeping.run_bind .run_get
  intro store _
  split
  · exact .run_lift (guard.hands_newScalar _)
  · exact .run_throw trivial
  · exact .run_throw trivial

theorem hands_convert {value : Value} (valueGood : guard.good value) (target : Kind) :
    guard.HandsAny (value.convert target) guard.good := by
  apply Keeping.run_bind .run_get
  intro store _
  split
  · exact .run_pure valueGood
  · split
    · split
      · exact .run_lift (guard.hands_newScalar _)
      · exact .run_throw trivial
    · exact .run_throw trivial

theorem hands_truth {value : Value} (valueGood : guard.good value) :
    guard.HandsAny value.truth fun _ => True := by
  apply Keeping.run_bind .run_get
  intro store _
  split
  · exact .run_pure trivial
  · apply Keeping.run_bind (guard.hands_convert valueGood _)
    intro result _
    apply Keeping.run_bind .run_get
    exact fun _ _ => .run_pure trivial

/-! ## Properties and arguments -/

theorem hands_property {value : Value} (valueGood : guard.good value) (name : String) :
    guard.HandsAny (value.property name) guard.good := by
  apply Keeping.run_bind .run_get
  intro store start
  split
  · apply Keeping.run_lift
    apply Keeping.bind .get
    intro _ _
    split <;> exact guard.hands_newScalar _
  · split
    · exact .run_pure (guard.member_iff.mpr valueGood)
    · split
      · next entry found =>
          obtain ⟨entries, atValue, atKey⟩ := Option.bind_eq_some_iff.mp found
          exact .run_pure (guard.values (guard.fits_dictionary start valueGood atValue) entry
            (Dictionary.get?_mem_values atKey))
      · exact .run_throw trivial

theorem hands_require {arguments : CallArguments}
    (all : ∀ argument ∈ arguments.items, guard.good argument.value) (name : String) (index : Nat) :
    guard.HandsAny (liftM (arguments.require name index)) guard.good := by
  intro store start
  rw [after_run_except]
  cases required : arguments.require name index with
  | ok value => exact ⟨start, CallArguments.require_good all required⟩
  | error cause => exact ⟨start, trivial⟩

/-! ## Construction -/

theorem hands_copiedCell {argument : Value} (argumentGood : guard.good argument)
    (mismatch : Cause) :
    guard.HandsAny (do
      match ← argument.detachedCell? with
      | some cell => pure cell
      | none => throw mismatch : StoreExceptM Cell) guard.fits := by
  apply Keeping.run_bind (.run_lift (guard.hands_detachedCell? argumentGood))
  intro copy fits
  cases copy with
  | some cell => exact .run_pure (fits cell rfl)
  | none => exact .run_throw trivial

theorem hands_constructedCell (kind : StoredKind) {argument : Value}
    (argumentGood : guard.good argument) :
    guard.HandsAny (Value.constructedCell kind argument) guard.fits := by
  have copies := guard.hands_copiedCell argumentGood
  have scalar : ∀ value : Scalar, guard.HandsAny (pure (Cell.scalar value)) guard.fits :=
    fun value => .run_pure (guard.scalar value)
  apply Keeping.run_bind .run_get
  intro store _
  cases kind with
  | integer | real =>
      dsimp only
      split
      · exact scalar _
      · exact .run_throw trivial
  | duration =>
      dsimp only
      split
      · split
        · exact scalar _
        · exact .run_throw trivial
      · split
        · exact copies _
        · exact .run_throw trivial
  | timePoint =>
      dsimp only
      split
      · split
        · exact scalar _
        · exact .run_throw trivial
      · split
        · exact copies _
        · exact .run_throw trivial
  | dictionary | host | boolean | string | array =>
      dsimp only
      split
      · exact copies _
      · exact .run_throw trivial

theorem hands_construct (now : Instant) (kind : Kind) {argument : Value}
    (argumentGood : guard.good argument) :
    guard.HandsAny (Value.construct now kind argument) guard.good := by
  apply Keeping.run_bind .run_get
  intro store _
  cases kind with
  | stored kind =>
      dsimp only
      split
      · exact .run_lift (guard.hands_allocate kind (guard.fits_initial now kind))
      · exact .run_pure argumentGood
      · apply Keeping.run_bind (guard.hands_constructedCell kind argumentGood)
        intro cell fits
        exact .run_lift (guard.hands_allocate kind fits)
  | error =>
      dsimp only
      split
      · exact .run_lift (guard.hands_newError _ _)
      · exact .run_pure argumentGood
      · split
        · exact .run_lift (guard.hands_newError _ _)
        · exact .run_throw trivial
  | void =>
      dsimp only
      split
      · exact .run_pure guard.void
      · exact .run_throw trivial
  | memberFunction | freeFunction | workflow | workflowInvocation => exact .run_throw trivial

/-! ## Replies -/

mutual

theorem hands_ofJson (json : Json) : guard.Hands (Value.ofJson json) guard.good := by
  cases json with
  | null => exact .pure guard.void
  | bool value => exact guard.hands_newScalar _
  | integer value =>
      unfold Value.ofJson
      split <;> exact guard.hands_newScalar _
  | real value => exact guard.hands_newScalar _
  | string value => exact guard.hands_newScalar _
  | array items =>
      unfold Value.ofJson
      apply Keeping.bind (hands_ofJsonItems items)
      intro values inside
      exact guard.hands_allocate .array (guard.array inside)
  | object members =>
      unfold Value.ofJson
      apply Keeping.bind (hands_ofJsonMembers members)
      intro entries inside
      exact guard.hands_allocate .dictionary (guard.fits_ofList inside)

theorem hands_ofJsonItems (items : List Json) :
    guard.Hands (Value.ofJsonItems items) fun values => ∀ value ∈ values, guard.good value := by
  cases items with
  | nil => exact .pure nofun
  | cons item rest =>
      unfold Value.ofJsonItems
      apply Keeping.bind (hands_ofJson item)
      intro value valueGood
      apply Keeping.bind (hands_ofJsonItems rest)
      intro values inside
      exact .pure (List.forall_mem_cons.mpr ⟨valueGood, inside⟩)

theorem hands_ofJsonMembers (members : List (String × Json)) :
    guard.Hands (Value.ofJsonMembers members) fun entries =>
      ∀ value ∈ entries.map (·.2), guard.good value := by
  cases members with
  | nil => exact .pure nofun
  | cons member rest =>
      obtain ⟨key, json⟩ := member
      unfold Value.ofJsonMembers
      apply Keeping.bind (hands_ofJson json)
      intro value valueGood
      apply Keeping.bind (hands_ofJsonMembers rest)
      intro entries inside
      exact .pure (List.forall_mem_cons.mpr ⟨valueGood, inside⟩)

end

theorem hands_ofJsonObject (members : JsonObject) :
    guard.Hands (Value.ofJsonObject members) fun entries => guard.fits (.dictionary entries) :=
  .bind (guard.hands_ofJsonMembers members) fun _ inside => .pure (guard.fits_ofList inside)

end CellGuard

namespace WriteGuard

variable (guard : WriteGuard)

/-! ## Member functions -/

theorem hands_push {receiver : Value} (receiverGood : guard.good receiver)
    {arguments : CallArguments} (all : ∀ argument ∈ arguments.items, guard.good argument.value) :
    guard.HandsAny (receiver.push arguments) guard.good := by
  apply Keeping.run_bind (guard.hands_require all "value" 0)
  intro value valueGood
  apply Keeping.run_bind (.run_lift (guard.hands_detach valueGood))
  intro item itemGood
  apply Keeping.run_bind .run_get
  intro store start
  split
  · next items found =>
      have grown : guard.fits (.array (items ++ [item])) := by
        apply guard.array
        rw [List.forall_mem_append, List.forall_mem_singleton]
        exact ⟨guard.values (guard.fits_array start receiverGood found), itemGood⟩
      apply Keeping.run_bind (.run_modify fun _ later => guard.write later receiverGood grown)
      exact fun _ _ => .run_pure guard.void
  · exact .run_throw trivial

theorem hands_insert {receiver : Value} (receiverGood : guard.good receiver)
    {arguments : CallArguments} (all : ∀ argument ∈ arguments.items, guard.good argument.value) :
    guard.HandsAny (receiver.insert arguments) guard.good := by
  apply Keeping.run_bind (guard.hands_require all "key" 0)
  intro key _
  apply Keeping.run_bind .run_get
  intro store _
  split
  · exact .run_throw trivial
  · next key _ =>
    apply Keeping.run_bind (guard.hands_require all "value" 1)
    intro value valueGood
    apply Keeping.run_bind (.run_lift (guard.hands_detach valueGood))
    intro entry entryGood
    apply Keeping.run_bind .run_get
    intro later start
    split
    · next kind address entries found =>
        have grown : guard.fits (.dictionary (entries.insert key entry)) :=
          guard.insert (guard.fits_dictionary start receiverGood found) entryGood
        apply Keeping.run_bind (.run_modify fun _ later => guard.write later receiverGood grown)
        exact fun _ _ => .run_pure guard.void
    · exact .run_throw trivial

theorem hands_callMember (function : MemberFunction) {receiver : Value}
    (receiverGood : guard.good receiver) {arguments : CallArguments}
    (all : ∀ argument ∈ arguments.items, guard.good argument.value) :
    guard.HandsAny (receiver.callMember function arguments) guard.good := by
  cases function with
  | push => exact guard.hands_push receiverGood all
  | insert => exact guard.hands_insert receiverGood all

/-! ## Assignment -/

theorem hands_overwrite {target source : Value} (targetGood : guard.good target)
    (sourceGood : guard.good source) : guard.Hands (target.overwrite source) fun _ => True := by
  unfold Value.overwrite
  split
  · split
    · apply Keeping.bind (guard.hands_detachedCell? sourceGood)
      intro copy fits
      cases copy with
      | some cell =>
          apply Keeping.bind
            (.modify fun _ start => guard.write start targetGood (fits cell rfl))
          exact fun _ _ => .pure trivial
      | none => exact .pure trivial
    · exact .pure trivial
  · exact .pure trivial
  · exact .pure trivial

theorem hands_assignSame {target source : Value} (targetGood : guard.good target)
    (sourceGood : guard.good source) :
    guard.HandsAny (target.assignSame source) guard.good := by
  unfold Value.assignSame
  split
  · apply Keeping.run_bind (.run_lift (guard.hands_overwrite targetGood sourceGood))
    intro done _
    cases done with
    | true => exact .run_pure targetGood
    | false => exact .run_lift (guard.hands_detach sourceGood)
  · exact .run_throw trivial

theorem hands_assign {target source : Value} (targetGood : guard.good target)
    (sourceGood : guard.good source) : guard.HandsAny (target.assign source) guard.good := by
  have same := guard.hands_assignSame targetGood sourceGood
  apply Keeping.run_bind .run_get
  intro store _
  dsimp only
  split
  · exact .run_pure sourceGood
  · cases target with
    | stored kind address =>
        cases kind with
        | integer | real =>
            dsimp only
            split
            · next value _ =>
              apply Keeping.run_bind
                (.run_modify fun _ start => guard.write start targetGood (guard.scalar value))
              exact fun _ _ => .run_pure targetGood
            · exact .run_throw trivial
        | dictionary | host =>
            dsimp only
            split
            · apply Keeping.run_bind (.run_lift (guard.hands_detachedCell? sourceGood))
              intro copy fits
              cases copy with
              | some cell =>
                  apply Keeping.run_bind
                    (.run_modify fun _ start => guard.write start targetGood (fits cell rfl))
                  exact fun _ _ => .run_pure targetGood
              | none => exact .run_throw trivial
            · exact .run_throw trivial
        | _ => exact same
    | _ => exact same

end WriteGuard

end FlowScript
