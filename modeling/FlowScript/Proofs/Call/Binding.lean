import FlowScript.Proofs.Call.Matching
import FlowScript.Proofs.Run.Walk
import FlowScript.Proofs.Scope.Stack
import FlowScript.Proofs.Storage.Contents

/-!
# Parameters are bound to their arguments

Binding the parameters of a workflow in a scope without variables succeeds exactly
for the calls that fit, and then every parameter has a deep copy of its partner.
-/

set_option autoImplicit false

namespace FlowScript

open RunM

/-! ## Single steps -/

theorem returns_bind {α β : Type} {first : RunM α} {next : α → RunM β} {machine final : Machine}
    {result : β} :
    (first >>= next).Returns machine result final ↔
      ∃ value middle, first.Returns machine value middle ∧
        (next value).Returns middle result final :=
  ⟨RunM.Returns.steps, fun ⟨_, _, returns, nextReturns⟩ => returns.bind nextReturns⟩

theorem returns_pure {α : Type} {value result : α} {machine final : Machine} :
    (pure value : RunM α).Returns machine result final ↔ result = value ∧ final = machine :=
  ⟨RunM.Returns.of_pure, fun ⟨sameResult, sameFinal⟩ => sameResult ▸ sameFinal ▸ rfl⟩

theorem not_returns_fail {α : Type} {cause : Cause} {location : Span} {result : α}
    {machine final : Machine} : ¬ (fail cause location : RunM α).Returns machine result final := by
  intro returns
  cases returns

theorem returns_onStore {α : Type} {action : StoreM α} {result : α} {machine final : Machine} :
    (onStore action).Returns machine result final ↔
      ∃ store, action.run machine.store = (result, store) ∧ final = { machine with store } := by
  constructor
  · intro returns
    cases returns
    exact ⟨_, rfl, rfl⟩
  · intro ⟨store, ran, same⟩
    have unfolded : (onStore action).run.run machine =
        (.ok (action.run machine.store).1,
          { machine with store := (action.run machine.store).2 }) := rfl
    rw [RunM.Returns, unfolded, ran, same]

theorem returns_resolveKind {name : Identifier} {machine final : Machine} {kind : Kind} :
    (resolveKind name).Returns machine kind final ↔
      Kind.ofName? name.name = some kind ∧ final = machine := by
  unfold resolveKind
  cases Kind.ofName? name.name with
  | none => simp [not_returns_fail]
  | some found => simp [returns_pure, eq_comm]

theorem returns_chooseArgument {arguments : CallArguments} {location : Span}
    {parameter : Parameter} {unnamed : List CallArgument} {machine final : Machine}
    {chosen : CallArgument × List CallArgument} :
    (chooseArgument arguments location parameter unnamed).Returns machine chosen final ↔
      arguments.choose? parameter unnamed = some chosen ∧ final = machine := by
  unfold chooseArgument CallArguments.choose?
  cases arguments.named? parameter.name.name with
  | some argument => simp [returns_pure, eq_comm]
  | none =>
      cases unnamed with
      | nil => simp [not_returns_fail]
      | cons argument left => simp [returns_pure, eq_comm]

/-- The machine after some variables were declared in the innermost scope. -/
def Machine.declaring (machine : Machine) (entries : List (String × Value)) (store : Store) :
    Machine :=
  let bindings := ⟨machine.scopes.current.bindings.entries ++ entries⟩
  { machine with
    scopes := { machine.scopes with current := { machine.scopes.current with bindings } }
    store }

theorem Machine.declaring_nil (machine : Machine) :
    machine.declaring [] machine.store = machine := by
  simp [declaring]

theorem Machine.declaring_declaring (machine : Machine) (first second : List (String × Value))
    (store later : Store) :
    (machine.declaring first store).declaring second later =
      machine.declaring (first ++ second) later := by
  simp [declaring]

theorem Machine.keys_declaring (machine : Machine) (entries : List (String × Value))
    (store : Store) :
    (machine.declaring entries store).scopes.current.bindings.keys =
      machine.scopes.current.bindings.keys ++ entries.map (·.1) := by
  simp [declaring, Dictionary.keys]

theorem returns_declare {location : Span} {name : String} {value : Value}
    {machine final : Machine} :
    (onScopesAt location (·.declare name value)).Returns machine () final ↔
      name ∉ machine.scopes.current.bindings.keys ∧
        final = machine.declaring [(name, value)] machine.store := by
  have present : machine.scopes.current.bindings.contains name ↔
      name ∈ machine.scopes.current.bindings.keys := Dictionary.find?_isSome_iff
  rw [← present]
  constructor
  · intro returns
    obtain ⟨scopes, changed, rfl⟩ := returns.onScopesAt
    obtain ⟨missing, rfl⟩ := ScopeStack.declare_eq_ok changed
    have absent : Dictionary.find? name machine.scopes.current.bindings.entries = none := by
      simpa [Dictionary.contains, Dictionary.get?] using missing
    exact ⟨by simp [missing], by
      simp [Machine.declaring, Dictionary.insert, Dictionary.put_of_find?_eq_none value absent]⟩
  · rintro ⟨missing, same⟩
    have absent : Dictionary.find? name machine.scopes.current.bindings.entries = none := by
      simpa [Dictionary.contains, Dictionary.get?] using missing
    unfold RunM.Returns
    rw [run_onScopesAt, ScopeStack.declare, if_neg missing, same]
    simp [Machine.declaring, Dictionary.insert, Dictionary.put_of_find?_eq_none value absent]

theorem returns_bindArgument {parameter : Parameter} {expected : Kind} {argument : CallArgument}
    {machine final : Machine} :
    (bindArgument parameter expected argument).Returns machine () final ↔
      argument.value.kind = expected ∧
        parameter.name.name ∉ machine.scopes.current.bindings.keys ∧
        ∃ copy store, argument.value.detach.run machine.store = (copy, store) ∧
          final = machine.declaring [(parameter.name.name, copy)] store := by
  unfold bindArgument
  split
  · next agrees =>
      simp only [returns_bind, returns_onStore, returns_declare, agrees, true_and]
      constructor
      · intro ⟨copy, middle, ⟨store, ran, same⟩, missing, declared⟩
        subst same
        exact ⟨missing, copy, store, ran, declared⟩
      · intro ⟨missing, copy, store, ran, declared⟩
        exact ⟨copy, _, ⟨store, ran, rfl⟩, missing, declared⟩
  · next differs => simp [not_returns_fail, differs]

/-! ## All parameters -/

/-- Every parameter has a known type, and its argument is of this type. -/
def KindsAgree (parameters : List Parameter) (chosen : List CallArgument) : Prop :=
  ∀ pair ∈ parameters.zip chosen, Kind.ofName? pair.1.typeName.name = some pair.2.value.kind

def detachAll (chosen : List CallArgument) : StoreM (List Value) :=
  chosen.mapM fun argument => argument.value.detach

theorem run_detachAll_cons {argument : CallArgument} {rest : List CallArgument}
    {store final : Store} {copies : List Value} :
    (detachAll (argument :: rest)).run store = (copies, final) ↔
      ∃ copy middle others, argument.value.detach.run store = (copy, middle) ∧
        (detachAll rest).run middle = (others, final) ∧ copies = copy :: others := by
  have unfolded : (detachAll (argument :: rest)).run store =
      (let (copy, middle) := argument.value.detach.run store
      let (others, final) := (detachAll rest).run middle
      (copy :: others, final)) := by
    rw [detachAll, List.mapM_cons]
    rfl
  rw [unfolded]
  constructor
  · intro ran
    cases ran
    exact ⟨_, _, _, rfl, rfl, rfl⟩
  · intro ⟨copy, middle, others, first, restRan, same⟩
    simp [first, restRan, same]

theorem returns_bindEach_cons {arguments : CallArguments} {location : Span}
    {parameter : Parameter} {rest : List Parameter} {unnamed : List CallArgument}
    {machine final : Machine} :
    (bindEach arguments location (parameter :: rest) unnamed).Returns machine () final ↔
      ∃ argument left copy store,
        arguments.choose? parameter unnamed = some (argument, left) ∧
        Kind.ofName? parameter.typeName.name = some argument.value.kind ∧
        parameter.name.name ∉ machine.scopes.current.bindings.keys ∧
        argument.value.detach.run machine.store = (copy, store) ∧
        (bindEach arguments location rest left).Returns
          (machine.declaring [(parameter.name.name, copy)] store) () final := by
  rw [bindEach_cons]
  simp only [returns_bind, returns_resolveKind]
  constructor
  · intro ⟨expected, _, ⟨known, same⟩, ⟨argument, left⟩, _, chooses, _, middle, binds, restBinds⟩
    subst same
    obtain ⟨first, rfl⟩ := returns_chooseArgument.mp chooses
    obtain ⟨rfl, fresh, copy, store, ran, rfl⟩ := returns_bindArgument.mp binds
    exact ⟨argument, left, copy, store, first, known, fresh, ran, restBinds⟩
  · intro ⟨argument, left, copy, store, first, known, fresh, ran, restBinds⟩
    exact ⟨_, machine, ⟨known, rfl⟩, (argument, left), machine,
      returns_chooseArgument.mpr ⟨first, rfl⟩, (), _,
      returns_bindArgument.mpr ⟨rfl, fresh, copy, store, ran, rfl⟩, restBinds⟩

/-- Binding succeeds when every parameter finds an argument of its type and no
name is taken, and then declares one copy after the other. -/
theorem returns_bindEach {arguments : CallArguments} {location : Span}
    {parameters : List Parameter} {unnamed : List CallArgument} {machine final : Machine} :
    (bindEach arguments location parameters unnamed).Returns machine () final ↔
      ∃ chosen copies store, arguments.chooseAll? parameters unnamed = some chosen ∧
        KindsAgree parameters chosen ∧ (parameterNames parameters).Nodup ∧
        (∀ name ∈ parameterNames parameters, name ∉ machine.scopes.current.bindings.keys) ∧
        (detachAll chosen).run machine.store = (copies, store) ∧
        final = machine.declaring ((parameterNames parameters).zip copies) store := by
  induction parameters generalizing unnamed machine with
  | nil =>
      simp only [bindEach, returns_pure, true_and, CallArguments.chooseAll?]
      constructor
      · intro same
        exact ⟨[], [], machine.store, rfl, by simp [KindsAgree], by simp [parameterNames],
          by simp [parameterNames], rfl, same.trans machine.declaring_nil.symm⟩
      · rintro ⟨chosen, copies, store, empty, _, _, _, ran, same⟩
        cases empty
        cases ran
        exact same.trans machine.declaring_nil
  | cons parameter rest ih =>
      simp only [returns_bindEach_cons, ih, CallArguments.chooseAll?_cons]
      have names : parameterNames (parameter :: rest) =
          parameter.name.name :: parameterNames rest := rfl
      constructor
      · rintro ⟨argument, left, copy, store, first, known, fresh, ran, others, copies, last,
          restChosen, restAgrees, restOnce, restFresh, restRan, declared⟩
        have apart : ∀ name ∈ parameterNames rest,
            name ∉ machine.scopes.current.bindings.keys ∧ name ≠ parameter.name.name := by
          simpa [Machine.keys_declaring] using restFresh
        refine ⟨argument :: others, copy :: copies, last,
          ⟨argument, left, others, first, restChosen, rfl⟩, ?_, ?_, ?_,
          run_detachAll_cons.mpr ⟨copy, store, copies, ran, restRan, rfl⟩, ?_⟩
        · intro pair member
          rcases List.mem_cons.mp member with rfl | inRest
          · exact known
          · exact restAgrees pair inRest
        · exact names ▸ List.nodup_cons.mpr ⟨fun member => (apart _ member).2 rfl, restOnce⟩
        · intro name member
          rcases List.mem_cons.mp member with rfl | inRest
          · exact fresh
          · exact (apart name inRest).1
        · rw [declared, Machine.declaring_declaring, names, List.zip_cons_cons]
          rfl
      · rintro ⟨chosen, copies, last, ⟨argument, left, others, first, restChosen, same⟩, agrees,
          once, fresh, ran, declared⟩
        subst same
        obtain ⟨copy, store, restCopies, firstRan, restRan, rfl⟩ := run_detachAll_cons.mp ran
        rw [names] at once fresh
        obtain ⟨notAgain, restOnce⟩ := List.nodup_cons.mp once
        refine ⟨argument, left, copy, store, first, agrees _ List.mem_cons_self,
          fresh _ List.mem_cons_self, firstRan, others, restCopies, last, restChosen,
          fun pair member => agrees pair (List.mem_cons_of_mem _ member), restOnce, ?_, restRan, ?_⟩
        · intro name member
          have differs : name ≠ parameter.name.name := fun same => notAgain (same ▸ member)
          simpa [Machine.keys_declaring, differs] using fresh name (List.mem_cons_of_mem _ member)
        · rw [declared, Machine.declaring_declaring, names, List.zip_cons_cons]
          rfl

/-! ## Whole calls -/

theorem unknownArgument?_eq_none_iff {parameters : List Parameter} {arguments : CallArguments} :
    unknownArgument? parameters arguments = none ↔
      ∀ name ∈ arguments.names, name ∈ parameterNames parameters := by
  unfold unknownArgument?
  rw [List.find?_eq_none]
  constructor
  · intro known name member
    obtain ⟨argument, inItems, named⟩ := CallArguments.mem_names.mp member
    simpa [named, parameterNames] using known argument inItems
  · intro known argument inItems
    cases named : argument.name with
    | none => simp
    | some name =>
        have member := known name (CallArguments.mem_names.mpr ⟨argument, inItems, named⟩)
        simpa [parameterNames] using member

theorem returns_bindParameters {definition : Workflow} {arguments : CallArguments}
    {location : Span} {machine final : Machine} :
    (bindParameters definition arguments location).Returns machine () final ↔
      arguments.items.length = definition.parameters.length ∧
        (∀ name ∈ arguments.names, name ∈ parameterNames definition.parameters) ∧
        (bindEach arguments location definition.parameters arguments.unnamed).Returns machine ()
          final := by
  unfold bindParameters
  rw [← unknownArgument?_eq_none_iff]
  by_cases count : arguments.items.length = definition.parameters.length
  · cases unknown : unknownArgument? definition.parameters arguments with
    | none => simp [count, unknown]
    | some argument => simp [count, unknown, not_returns_fail]
  · simp [count, not_returns_fail]

/-- Types agree along the chosen arguments exactly if they do for all partners. -/
theorem kindsAgree_iff {parameters : List Parameter} {arguments : CallArguments}
    {chosen : List CallArgument}
    (chooses : arguments.chooseAll? parameters arguments.unnamed = some chosen) :
    KindsAgree parameters chosen ↔
      (∀ parameter ∈ parameters, (Kind.ofName? parameter.typeName.name).isSome) ∧
        ∀ (index : Nat) (parameter : Parameter) (argument : CallArgument),
          parameters[index]? = some parameter →
          arguments.partner? parameters index = some argument →
          Kind.ofName? parameter.typeName.name = some argument.value.kind := by
  have positions : ∀ pair : Parameter × CallArgument, pair ∈ parameters.zip chosen ↔
      ∃ index : Nat, parameters[index]? = some pair.1 ∧
        arguments.partner? parameters index = some pair.2 := by
    intro pair
    simp [List.mem_iff_getElem?, List.getElem?_zip_eq_some,
      CallArguments.partner?_of_chooseAll? chooses]
  constructor
  · intro agrees
    have kinds : ∀ (index : Nat) (parameter : Parameter) (argument : CallArgument),
        parameters[index]? = some parameter →
        arguments.partner? parameters index = some argument →
        Kind.ofName? parameter.typeName.name = some argument.value.kind :=
      fun index parameter argument atIndex partner =>
        agrees (parameter, argument) ((positions _).mpr ⟨index, atIndex, partner⟩)
    refine ⟨?_, kinds⟩
    intro parameter member
    obtain ⟨index, inBounds, atIndex⟩ := List.mem_iff_getElem.mp member
    have chosenBounds : index < chosen.length := by
      rwa [CallArguments.length_chooseAll? chooses]
    have partner : arguments.partner? parameters index = some chosen[index] := by
      rw [CallArguments.partner?_of_chooseAll? chooses, List.getElem?_eq_getElem chosenBounds]
    have known := kinds index parameter chosen[index] (by simp [inBounds, atIndex]) partner
    simp [known]
  · intro ⟨_, kinds⟩ pair member
    obtain ⟨index, atIndex, partner⟩ := (positions pair).mp member
    exact kinds index pair.1 pair.2 atIndex partner

/-- In a scope without variables, binding succeeds exactly for calls that fit. -/
theorem returns_bindParameters_iff {definition : Workflow} {arguments : CallArguments}
    {location : Span} {machine final : Machine}
    (empty : machine.scopes.current.bindings.keys = []) :
    (bindParameters definition arguments location).Returns machine () final ↔
      arguments.Fits definition.parameters ∧
        ∃ chosen copies store,
          arguments.chooseAll? definition.parameters arguments.unnamed = some chosen ∧
          (detachAll chosen).run machine.store = (copies, store) ∧
          final =
            machine.declaring ((parameterNames definition.parameters).zip copies) store := by
  rw [returns_bindParameters, returns_bindEach]
  constructor
  · intro ⟨count, namesKnown, chosen, copies, store, chooses, agrees, once, _, ran, declared⟩
    have namesOnce := (CallArguments.chooseAll?_isSome_iff_nodup count once namesKnown).mp
      (by simp [chooses])
    obtain ⟨typesKnown, kinds⟩ := (kindsAgree_iff chooses).mp agrees
    exact ⟨⟨count, once, namesOnce, namesKnown, typesKnown, kinds⟩, chosen, copies, store,
      chooses, ran, declared⟩
  · intro ⟨fits, chosen, copies, store, chooses, ran, declared⟩
    exact ⟨fits.count, fits.namesKnown, chosen, copies, store, chooses,
      (kindsAgree_iff chooses).mpr ⟨fits.typesKnown, fits.kinds⟩, fits.parametersOnce,
      by simp [empty], ran, declared⟩

/-! ## Copies of the arguments -/

theorem detachAll_copies {allowed : Workflow → Prop} {store : Store}
    (sound : store.Sound allowed) {chosen : List CallArgument}
    (within : ∀ argument ∈ chosen, argument.value.Within allowed store.size) :
    After (detachAll chosen) store fun copies final =>
      Copied allowed store final copies ∧
        ∀ pair ∈ chosen.zip copies, pair.1.value.Alike store final pair.2 := by
  unfold detachAll
  apply (after_mapM_zip (fun done middle => Copied allowed store middle (done.map (·.2)) ∧
    ∀ pair ∈ done, pair.1.value.Alike store middle pair.2) chosen ⟨Copied.none sound, by simp⟩
    ?_).imp
  · intro copies final ⟨sameLength, copied, alike⟩
    rw [List.map_snd_zip (Nat.le_of_eq sameLength.symm)] at copied
    exact ⟨copied, alike⟩
  · intro done argument middle member ⟨copied, alike⟩
    have argumentWithin := within argument member
    have copiedToo := Value.detach_copied copied.sound
      (argumentWithin.mono copied.grown.size_le)
    have alikeToo := Value.detach_alike sound copied.grown argumentWithin
    constructor
    · simpa using copied.append copiedToo
    · intro pair pairMember
      rcases List.mem_append.mp pairMember with earlier | last
      · exact (alike pair earlier).mono copiedToo.grown.keeps
      · rw [List.mem_singleton] at last
        subst last
        exact alikeToo

/-- Binding the parameters of a workflow in a fresh function scope succeeds exactly
for the calls that fit it. Then every argument is the partner of exactly one
parameter, and the scope binds the parameters, in order, to copies of their
partners; in a sound store these are deep copies, made of new cells only. -/
theorem parameters_bound_bijectively (definition : Workflow) (arguments : CallArguments)
    (location : Span) (machine : Machine) :
    ((∃ final, (bindParameters definition arguments location).Returns
        (machine.entering .function) () final) ↔ arguments.Fits definition.parameters) ∧
      ∀ final, (bindParameters definition arguments location).Returns
          (machine.entering .function) () final →
        ∃ chosen copies,
          (∀ index, arguments.partner? definition.parameters index = chosen[index]?) ∧
          chosen.Perm arguments.items ∧
          (detachAll chosen).run machine.store = (copies, final.store) ∧
          final.scopes.current.bindings.entries =
            (parameterNames definition.parameters).zip copies ∧
          final = (machine.entering .function).declaring
            final.scopes.current.bindings.entries final.store ∧
          ∀ allowed, machine.store.Sound allowed →
            arguments.Within allowed machine.store.size →
            Copied allowed machine.store final.store copies ∧
              ∀ pair ∈ chosen.zip copies,
                pair.1.value.Alike machine.store final.store pair.2 := by
  have empty : (machine.entering .function).scopes.current.bindings.keys = [] := rfl
  constructor
  · constructor
    · intro ⟨final, returns⟩
      exact ((returns_bindParameters_iff empty).mp returns).1
    · intro fits
      have enough := (CallArguments.chooseAll?_isSome_iff_nodup fits.count fits.parametersOnce
        fits.namesKnown).mpr fits.namesOnce
      obtain ⟨chosen, chooses⟩ := Option.isSome_iff_exists.mp enough
      exact ⟨_, (returns_bindParameters_iff empty).mpr
        ⟨fits, chosen, _, _, chooses, rfl, rfl⟩⟩
  · intro final returns
    obtain ⟨fits, chosen, copies, store, chooses, ran, rfl⟩ :=
      (returns_bindParameters_iff empty).mp returns
    have permuted := CallArguments.chooseAll?_perm_items fits.count fits.parametersOnce
      fits.namesKnown chooses
    refine ⟨chosen, copies, CallArguments.partner?_of_chooseAll? chooses, permuted, ran,
      rfl, rfl, ?_⟩
    intro allowed sound within
    have chosenWithin : ∀ argument ∈ chosen, argument.value.Within allowed machine.store.size :=
      fun argument member => within argument (permuted.mem_iff.mp member)
    exact (detachAll_copies sound chosenWithin).of_run ran

/-- A workflow `pair(x : integer, y : string, z : integer)`. -/
def pairWorkflow : Workflow :=
  let parameter (name kind : String) : Parameter := ⟨⟨name, .origin⟩, ⟨kind, .origin⟩, .origin⟩
  { name := ⟨"pair", .origin⟩
    signature := some ⟨[parameter "x" "integer", parameter "y" "string", parameter "z" "integer"],
      none, .origin⟩
    body := ⟨[], .origin⟩
    span := .origin }

/-- The call `pair(z=3, 1, 'one')`. -/
def mixedCall : CallArguments :=
  ⟨[⟨0, some "z", .stored .integer 2, .origin⟩, ⟨1, none, .stored .integer 0, .origin⟩,
    ⟨2, none, .stored .string 1, .origin⟩], .origin⟩

def mixedMachine : Machine where
  scopes := .initial
  store := ((Store.empty.push (.scalar (.integer 1))).push (.scalar (.string "one"))).push
    (.scalar (.integer 3))
  now := 0
  logs := #[]
  requests := #[]

theorem mixedMachine_sound : mixedMachine.store.Sound fun _ => False := by
  have push : ∀ {store : Store} (scalar : Scalar), store.Sound (fun _ => False) →
      (store.push (.scalar scalar)).Sound fun _ => False :=
    fun scalar sound => sound.push (show Loose 0 _ [] from .nil) (by simp [Cell.values])
  exact push _ (push _ (push _ Store.sound_empty))

/-- The named argument goes to `z` and the others to `x` and `y`, as deep copies. -/
theorem mixedCall_bound_bijectively :
    ∃ (final : Machine) (chosen : List CallArgument) (copies : List Value),
      (bindParameters pairWorkflow mixedCall .origin).Returns
        (mixedMachine.entering .function) () final ∧
      chosen.Perm mixedCall.items ∧
      final.scopes.current.bindings.entries = ["x", "y", "z"].zip copies ∧
      ∀ pair ∈ chosen.zip copies, pair.1.value.Alike mixedMachine.store final.store pair.2 := by
  obtain ⟨succeeds, binds⟩ :=
    parameters_bound_bijectively pairWorkflow mixedCall .origin mixedMachine
  have chooses : mixedCall.chooseAll? pairWorkflow.parameters mixedCall.unnamed =
      some [⟨1, none, .stored .integer 0, .origin⟩, ⟨2, none, .stored .string 1, .origin⟩,
        ⟨0, some "z", .stored .integer 2, .origin⟩] := rfl
  obtain ⟨typesKnown, kinds⟩ := (kindsAgree_iff chooses).mp (by unfold KindsAgree; decide +kernel)
  obtain ⟨final, returns⟩ := succeeds.mpr
    ⟨rfl, by decide, by decide, by decide, typesKnown, kinds⟩
  obtain ⟨chosen, copies, -, permuted, -, entries, -, copied⟩ := binds final returns
  have within : mixedCall.Within (fun _ => False) mixedMachine.store.size := by
    intro argument member
    have stored : ∃ kind, ∃ address < 3, argument.value = .stored kind address := by
      simp only [mixedCall, List.mem_cons, List.not_mem_nil, or_false] at member
      rcases member with rfl | rfl | rfl <;> simp
    obtain ⟨kind, address, inBounds, same⟩ := stored
    exact same ▸ .stored inBounds
  exact ⟨final, chosen, copies, returns, permuted, entries,
    (copied _ mixedMachine_sound within).2⟩

end FlowScript
