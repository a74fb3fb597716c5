import FlowScript.Proofs.Storage.Copy
import FlowScript.Value.Json
import FlowScript.Value.Property

/-!
# Operations on a sound store

Operators, properties, member functions, construction and assignment keep the
store sound, whether they succeed or fail. A constructed value is loose, so that
a variable can take it; an assigned one is the target again or has no cell.
-/

set_option autoImplicit false

namespace FlowScript

variable {allowed : Workflow → Prop} {store : Store}

/-- The computation keeps the store sound, and its result, if there is one, has
the given property. -/
def Store.Yields {α : Type} (allowed : Workflow → Prop) (store : Store)
    (action : StoreExceptM α) (result : α → Store → Prop) : Prop :=
  After action.run store fun outcome final =>
    store.Advances allowed final ∧ ∀ value, outcome = .ok value → result value final

namespace Store

theorem Yields.pure {α : Type} {value : α} {result : α → Store → Prop}
    (sound : store.Sound allowed) (holds : result value store) :
    store.Yields allowed (Pure.pure value) result := by
  refine ⟨.refl sound, fun other same => ?_⟩
  cases same
  exact holds

theorem Yields.throw {α : Type} {cause : Cause} {result : α → Store → Prop}
    (sound : store.Sound allowed) : store.Yields allowed (MonadExcept.throw cause) result :=
  ⟨.refl sound, fun _ same => by cases same⟩

theorem Yields.get {α : Type} {next : Store → StoreExceptM α} {result : α → Store → Prop}
    (yields : store.Yields allowed (next store) result) :
    store.Yields allowed (MonadState.get >>= next) result := by
  simp only [Yields, after_run_bind, after_run_get]
  exact yields

theorem Yields.lift {α : Type} {action : StoreM α} {result : α → Store → Prop}
    (ends : After action store fun value final =>
      store.Advances allowed final ∧ result value final) :
    store.Yields allowed (liftM action) result := by
  refine ⟨ends.1, fun other same => ?_⟩
  cases same
  exact ends.2

structure Gives (allowed : Workflow → Prop) (before : Store) (value : Value) (final : Store) :
    Prop where
  within : value.Within allowed final.size
  loose : Loose before.size final.held [value]

end Store

theorem Copied.gives {before after : Store} {value : Value}
    (copied : Copied allowed before after [value]) :
    before.Advances allowed after ∧ before.Gives allowed value after :=
  ⟨copied.advances, copied.within value List.mem_cons_self, copied.loose⟩

/-! ## Reading cells -/

namespace Store

theorem array?_eq_some {address : Nat} {kind : StoredKind} {items : List Value}
    (found : store.array? (.stored kind address) = some items) :
    store.cell? address = some (.array items) := by
  simp only [array?] at found
  split at found
  · next atAddress =>
      cases found
      exact atAddress
  · cases found

theorem dictionary?_eq_some {address : Nat} {kind : StoredKind} {entries : Dictionary Value}
    (found : store.dictionary? (.stored kind address) = some entries) :
    store.cell? address = some (.dictionary entries) := by
  simp only [dictionary?] at found
  split at found
  · next atAddress =>
      cases found
      exact atAddress
  · cases found

theorem Sound.entry_within (sound : store.Sound allowed) {value entry : Value}
    {key : String} (found : (store.dictionary? value).bind (·.get? key) = some entry) :
    entry.Within allowed store.size := by
  obtain ⟨entries, atValue, atKey⟩ := Option.bind_eq_some_iff.mp found
  cases value with
  | stored kind address =>
      exact sound.cell_within (dictionary?_eq_some atValue) entry
        (Dictionary.get?_mem_values atKey)
  | _ => cases atValue

end Store

namespace CallArguments

theorem Within.named {bound : Nat} {arguments : CallArguments}
    (within : arguments.Within allowed bound) {name : String} {argument : CallArgument}
    (found : arguments.named? name = some argument) : argument.value.Within allowed bound :=
  within argument (List.mem_of_find?_eq_some found)

theorem Within.require {bound : Nat} {arguments : CallArguments}
    (within : arguments.Within allowed bound) {name : String} {index : Nat} {value : Value}
    (found : arguments.require name index = .ok value) : value.Within allowed bound := by
  unfold CallArguments.require at found
  split at found
  · next argument chosen =>
      cases found
      unfold namedOrAt? at chosen
      split at chosen
      · next named =>
          cases chosen
          exact within.named named
      · obtain ⟨atIndex, -⟩ := Option.filter_eq_some_iff.mp chosen
        exact within argument (List.mem_of_getElem? atIndex)
  · cases found

end CallArguments

namespace Value

/-! ## Operators and conversions -/

theorem newScalar_yields (sound : store.Sound allowed) (scalar : Scalar) :
    store.Yields allowed (liftM (newScalar scalar)) (store.Gives allowed) :=
  .lift ((newScalar_copied sound scalar).imp fun _ _ copied => copied.gives)

theorem binary_yields (sound : store.Sound allowed) (op : BinaryOperator) (left right : Value) :
    store.Yields allowed (binary op left right) (store.Gives allowed) := by
  unfold binary
  refine .get ?_
  split
  · exact newScalar_yields sound _
  · exact .throw sound
  · exact .throw sound

theorem unary_yields (sound : store.Sound allowed) (op : UnaryOperator) (operand : Value) :
    store.Yields allowed (unary op operand) (store.Gives allowed) := by
  unfold unary
  refine .get ?_
  split
  · exact newScalar_yields sound _
  · exact .throw sound
  · exact .throw sound

theorem convert_yields (sound : store.Sound allowed) (value : Value) (target : Kind) :
    store.Yields allowed (value.convert target) fun _ _ => True := by
  unfold convert
  refine .get ?_
  split
  · exact .pure sound trivial
  · split
    · split
      · exact .lift ((newScalar_copied sound _).imp fun _ _ copied => ⟨copied.advances, trivial⟩)
      · exact .throw sound
    · exact .throw sound

theorem truth_yields (sound : store.Sound allowed) (value : Value) :
    store.Yields allowed value.truth fun _ _ => True := by
  unfold truth
  refine .get ?_
  split
  · exact .pure sound trivial
  · simp only [Store.Yields, after_run_bind, after_run_get, after_run_pure]
    refine (convert_yields sound value (.stored .boolean)).imp ?_
    intro outcome final converted
    cases outcome <;> exact ⟨converted.1, fun _ _ => trivial⟩

/-! ## Properties and member functions -/

theorem staticProperty_copied (sound : store.Sound allowed) (value : Value) :
    After value.staticProperty store fun result final => Copied allowed store final [result] := by
  simp only [staticProperty, after_bind, after_get]
  split <;> exact newScalar_copied sound _

theorem property_yields (sound : store.Sound allowed) {value : Value}
    (within : value.Within allowed store.size) (name : String) :
    store.Yields allowed (value.property name) fun found final =>
      found.Within allowed final.size := by
  unfold property
  refine .get ?_
  split
  · exact .lift ((staticProperty_copied sound value).imp fun _ _ copied =>
      ⟨copied.advances, copied.gives.2.within⟩)
  · split
    · exact .pure sound (.member within)
    · split
      · next entry found => exact .pure sound (sound.entry_within found)
      · exact .throw sound

/-- A copy is put into a cell beside values that were there before. -/
theorem write_beside {before middle : Store} (sound : before.Sound allowed) {copy : Value}
    (copied : Copied allowed before middle [copy]) {address : Nat} {old cell : Cell}
    (found : middle.cell? address = some old) (inBounds : address < before.size)
    (contained : List.Subperm cell.values (copy :: old.values)) :
    before.Advances allowed (middle.write address cell) := by
  have oldParts : before.parts address = old.parts := by
    rw [← copied.grown.parts_eq inBounds, Store.parts_of_cell found]
  have partsContained : List.Subperm cell.parts (addresses [copy] ++ old.parts) := by
    have joined := addresses_append [copy] old.values
    exact joined ▸ addresses_subperm contained
  -- The copy is held by nobody, so it cannot be one of the old parts.
  have single : (addresses [copy] ++ old.parts).Nodup := by
    rw [List.nodup_append]
    refine ⟨copied.loose.single, copied.sound.nodup_parts found, ?_⟩
    intro part new other kept same
    subst same
    refine copied.loose.free part new (middle.parts_subset_held address ?_)
    rw [Store.parts_of_cell found]
    exact kept
  refine copied.write sound inBounds (nodup_of_subperm partsContained single) ?_ ?_
  · intro part member
    rcases List.mem_append.mp (partsContained.subset member) with new | kept
    · exact .inr new
    · exact .inl (oldParts ▸ kept)
  · intro value member
    rcases List.mem_cons.mp (contained.subset member) with rfl | kept
    · exact copied.within value List.mem_cons_self
    · exact copied.sound.cell_within found value kept

theorem push_yields (sound : store.Sound allowed) {receiver : Value}
    (receiverWithin : receiver.Within allowed store.size) {arguments : CallArguments}
    (within : arguments.Within allowed store.size) :
    store.Yields allowed (receiver.push arguments) fun result final =>
      result.Within allowed final.size := by
  simp only [Store.Yields, push, after_run_bind, after_run_except, after_run_lift, after_run_get]
  split
  · next value required =>
      refine (detach_copied sound (within.require required)).imp ?_
      intro item middle copied
      split
      · next kind address items found =>
          simp only [after_run_bind, after_run_modify, after_run_pure]
          have contained : List.Subperm (items ++ [item]) (item :: items) :=
            (List.perm_append_singleton item items).subperm
          refine ⟨write_beside sound copied (Store.array?_eq_some found)
            (receiverWithin.address_lt rfl) contained, fun result same => ?_⟩
          cases same
          exact .void
      · exact ⟨copied.advances, fun _ same => by cases same⟩
  · exact ⟨.refl sound, fun _ same => by cases same⟩

theorem insert_yields (sound : store.Sound allowed) {receiver : Value}
    (receiverWithin : receiver.Within allowed store.size) {arguments : CallArguments}
    (within : arguments.Within allowed store.size) :
    store.Yields allowed (receiver.insert arguments) fun result final =>
      result.Within allowed final.size := by
  simp only [Store.Yields, insert, after_run_bind, after_run_except, after_run_get]
  split
  · split
    · exact ⟨.refl sound, fun _ same => by cases same⟩
    · next key _ =>
        simp only [after_run_bind, after_run_except, after_run_lift, after_run_get]
        split
        · next value required =>
            refine (detach_copied sound (within.require required)).imp ?_
            intro entry middle copied
            split
            · next kind address entries found =>
                simp only [after_run_bind, after_run_modify, after_run_pure]
                refine ⟨write_beside sound copied (Store.dictionary?_eq_some found)
                  (receiverWithin.address_lt rfl)
                  (Dictionary.insert_values_subperm entries key entry), fun result same => ?_⟩
                cases same
                exact .void
            · exact ⟨copied.advances, fun _ same => by cases same⟩
        · exact ⟨.refl sound, fun _ same => by cases same⟩
  · exact ⟨.refl sound, fun _ same => by cases same⟩

theorem callMember_yields (sound : store.Sound allowed) (function : MemberFunction)
    {receiver : Value} (receiverWithin : receiver.Within allowed store.size)
    {arguments : CallArguments} (within : arguments.Within allowed store.size) :
    store.Yields allowed (callMember function receiver arguments) fun result final =>
      result.Within allowed final.size := by
  cases function with
  | push => exact push_yields sound receiverWithin within
  | insert => exact insert_yields sound receiverWithin within

/-! ## Construction -/

theorem initial_values (now : Instant) (kind : StoredKind) : (initial now kind).values = [] := by
  cases kind <;> rfl

/-- Every kind that copies does so in the same words. -/
theorem copiedCell_yields (sound : store.Sound allowed) {argument : Value}
    (within : argument.Within allowed store.size) (mismatch : Cause) :
    store.Yields allowed (do
      match ← argument.detachedCell? with
      | some cell => pure cell
      | none => throw mismatch : StoreExceptM Cell) fun cell final =>
        Copied allowed store final cell.values := by
  simp only [Store.Yields, after_run_bind, after_run_lift]
  refine (detachedCell?_copied sound within).imp ?_
  intro result final copied
  cases result with
  | some cell =>
      refine ⟨copied.advances, fun other same => ?_⟩
      cases same
      exact copied
  | none =>
      obtain ⟨rfl, -⟩ := copied
      exact ⟨.refl sound, fun _ same => by cases same⟩

theorem constructedCell_yields (sound : store.Sound allowed) (kind : StoredKind)
    {argument : Value} (within : argument.Within allowed store.size) :
    store.Yields allowed (constructedCell kind argument) fun cell final =>
      Copied allowed store final cell.values := by
  have scalar : ∀ value : Scalar, store.Yields allowed (pure (Cell.scalar value))
      fun cell final => Copied allowed store final cell.values :=
    fun _ => .pure sound (Copied.none sound)
  have copies := copiedCell_yields sound within
  unfold constructedCell
  refine .get ?_
  cases kind with
  | integer | real =>
      dsimp only
      split
      · exact scalar _
      · exact .throw sound
  | duration =>
      dsimp only
      split
      · split
        · exact scalar _
        · exact .throw sound
      · split
        · exact copies _
        · exact .throw sound
  | timePoint =>
      dsimp only
      split
      · split
        · exact scalar _
        · exact .throw sound
      · split
        · exact copies _
        · exact .throw sound
  | dictionary | host | boolean | string | array =>
      dsimp only
      split
      · exact copies _
      · exact .throw sound

theorem construct_yields (sound : store.Sound allowed) (now : Instant) (kind : Kind)
    {argument : Value} (within : argument.Within allowed store.size) :
    store.Yields allowed (construct now kind argument) (store.Gives allowed) := by
  have bare : ∀ value : Value, value.Within allowed store.size → value.address? = none →
      store.Yields allowed (pure value) (store.Gives allowed) :=
    fun value valueWithin none => .pure sound ⟨valueWithin, .of_address?_eq_none none⟩
  have error : ∀ message location,
      store.Yields allowed (liftM (newError message location)) (store.Gives allowed) :=
    fun message location => .lift ((newError_copied sound message location).imp
      fun _ _ copied => copied.gives)
  unfold construct
  refine .get ?_
  cases kind with
  | stored kind =>
      dsimp only
      split
      · refine .lift ((allocate_copied ?_ kind).imp fun _ _ copied => copied.gives)
        rw [initial_values]
        exact Copied.none sound
      · exact bare _ within rfl
      · simp only [Store.Yields, after_run_bind, after_run_lift]
        refine (constructedCell_yields sound kind within).imp ?_
        intro outcome middle constructed
        cases outcome with
        | error cause => exact ⟨constructed.1, fun _ same => by cases same⟩
        | ok cell =>
            obtain ⟨advances, gives⟩ := ((constructed.2 cell rfl).push kind).gives
            refine ⟨advances, fun other same => ?_⟩
            cases same
            exact gives
  | error =>
      dsimp only
      split
      · exact error _ _
      · exact bare _ within rfl
      · split
        · exact error _ _
        · exact .throw sound
  | void =>
      dsimp only
      split
      · exact bare _ .void rfl
      · exact .throw sound
  | memberFunction | freeFunction | workflow | workflowInvocation => exact .throw sound

/-! ## Assignment -/

/-- What a variable holds after an assignment: its own cell again, or a value
without a cell. No other cell was written. -/
structure Assigned (allowed : Workflow → Prop) (before : Store) (target result : Value)
    (final : Store) : Prop where
  within : result.Within allowed final.size
  origin : result = target ∨ result.address? = none
  spares : before.Spares target final

theorem Assigned.target {before final : Store} {target : Value}
    (within : target.Within allowed before.size) (advances : before.Advances allowed final)
    (spares : before.Spares target final) : Assigned allowed before target target final :=
  ⟨within.mono advances.evolves.size_le, .inl rfl, spares⟩

theorem assignSame_yields (sound : store.Sound allowed) {target source : Value}
    (targetWithin : target.Within allowed store.size)
    (sourceWithin : source.Within allowed store.size) :
    store.Yields allowed (assignSame target source) (Assigned allowed store target) := by
  unfold assignSame
  split
  · next same =>
      simp only [Store.Yields, after_run_bind, after_run_lift]
      refine (overwrite_advances sound targetWithin sourceWithin).imp ?_
      intro done middle overwritten
      obtain ⟨⟨advances, spares⟩, refused⟩ := overwritten
      cases done with
      | true =>
          refine ⟨advances, fun other equal => ?_⟩
          cases equal
          exact .target targetWithin advances spares
      | false =>
          have bare := refused rfl same
          -- A value without a cell is its own copy.
          have unchanged : After source.detach middle fun copy final =>
              copy = source ∧ final = middle := by
            cases source with
            | stored => cases bare
            | _ => exact ⟨rfl, rfl⟩
          simp only [Bool.false_eq_true, if_false, after_run_lift]
          refine unchanged.imp ?_
          rintro copy final ⟨rfl, rfl⟩
          refine ⟨advances, fun other equal => ?_⟩
          cases equal
          exact ⟨sourceWithin.mono advances.evolves.size_le, .inr bare, spares⟩
  · exact .throw sound

theorem assign_yields (sound : store.Sound allowed) {target source : Value}
    (targetWithin : target.Within allowed store.size)
    (sourceWithin : source.Within allowed store.size) :
    store.Yields allowed (assign target source) (Assigned allowed store target) := by
  have same := assignSame_yields sound targetWithin sourceWithin
  unfold assign
  refine .get ?_
  dsimp only
  split
  · next isError =>
      cases source with
      | error => exact .pure sound ⟨.error, .inr rfl, fun _ _ _ => rfl⟩
      | _ => cases isError
  · cases target with
    | stored kind address =>
        have inBounds := targetWithin.address_lt rfl
        have settles : ∀ (cell : Cell) (middle : Store),
            Copied allowed store middle cell.values →
            store.Advances allowed (middle.write address cell) ∧ ∀ value : Value,
              (Except.ok (.stored kind address) : Except Cause Value) = .ok value →
                Assigned allowed store (.stored kind address) value
                  (middle.write address cell) := by
          intro cell middle copied
          have advances := copied.replace sound inBounds
          refine ⟨advances, fun value equal => ?_⟩
          cases equal
          exact .target targetWithin advances (copied.spares_write kind address cell)
        cases kind with
        | integer | real =>
            dsimp only
            split
            · simp only [Store.Yields, after_run_bind, after_run_modify, after_run_pure]
              exact settles _ _ (Copied.none sound)
            · exact .throw sound
        | dictionary | host =>
            dsimp only
            split
            · simp only [Store.Yields, after_run_bind, after_run_lift]
              refine (detachedCell?_copied sound sourceWithin).imp ?_
              intro result middle copied
              cases result with
              | some cell =>
                  simp only [after_run_bind, after_run_modify, after_run_pure]
                  exact settles cell middle copied
              | none =>
                  obtain ⟨rfl, -⟩ := copied
                  exact ⟨.refl sound, fun _ equal => by cases equal⟩
            · exact .throw sound
        | _ => exact same
    | _ => exact same

/-! ## Replies -/

theorem Copied.ofList {before after : Store} {entries : List (String × Value)}
    (copied : Copied allowed before after (entries.map (·.2))) :
    Copied allowed before after (Dictionary.ofList entries).values :=
  ⟨copied.sound, copied.grown, copied.loose.of_subperm (Dictionary.ofList_values_subperm entries),
    fun value member => copied.within value
      ((Dictionary.ofList_values_subperm entries).subset member)⟩

mutual

theorem ofJson_copied {store : Store} (sound : store.Sound allowed) (json : Json) :
    After (ofJson json) store fun value final => Copied allowed store final [value] := by
  cases json with
  | null => exact Copied.bare sound .void rfl
  | bool value => exact newScalar_copied sound _
  | integer value =>
      unfold ofJson
      split <;> exact newScalar_copied sound _
  | real value => exact newScalar_copied sound _
  | string value => exact newScalar_copied sound _
  | array items =>
      simp only [ofJson, after_bind]
      refine (ofJsonItems_copied sound items).imp ?_
      intro values middle copied
      exact copied.push .array
  | object members =>
      simp only [ofJson, after_bind]
      refine (ofJsonMembers_copied sound members).imp ?_
      intro entries middle copied
      exact (Copied.ofList copied).push .dictionary

theorem ofJsonItems_copied {store : Store} (sound : store.Sound allowed) (items : List Json) :
    After (ofJsonItems items) store fun values final => Copied allowed store final values := by
  cases items with
  | nil => exact Copied.none sound
  | cons item rest =>
      simp only [ofJsonItems, after_bind, after_pure]
      refine (ofJson_copied sound item).imp ?_
      intro value middle copied
      refine (ofJsonItems_copied copied.sound rest).imp ?_
      intro values final copiedRest
      exact copied.append copiedRest

theorem ofJsonMembers_copied {store : Store} (sound : store.Sound allowed)
    (members : List (String × Json)) :
    After (ofJsonMembers members) store fun entries final =>
      Copied allowed store final (entries.map (·.2)) := by
  cases members with
  | nil => exact Copied.none sound
  | cons member rest =>
      obtain ⟨key, json⟩ := member
      simp only [ofJsonMembers, after_bind, after_pure]
      refine (ofJson_copied sound json).imp ?_
      intro value middle copied
      refine (ofJsonMembers_copied copied.sound rest).imp ?_
      intro entries final copiedRest
      exact copied.append copiedRest

end

theorem ofJsonObject_copied (sound : store.Sound allowed) (members : JsonObject) :
    After (ofJsonObject members) store fun entries final =>
      Copied allowed store final entries.values :=
  (ofJsonMembers_copied sound members).imp fun _ _ copied => Copied.ofList copied

end Value

end FlowScript
