import FlowScript.Run.Call
import Mathlib.Data.List.Basic
import Mathlib.Data.List.Dedup
import Mathlib.Data.List.Nodup
import Mathlib.Tactic.Common

/-!
# Arguments and parameters

Which argument belongs to which parameter. Neither list is checked for names that
come twice: when there are as many arguments as parameters and every name is
known, an argument name that comes twice leaves too few unnamed arguments for the
parameters that the call does not name.
-/

set_option autoImplicit false

namespace FlowScript

def parameterNames (parameters : List Parameter) : List String :=
  parameters.map (·.name.name)

namespace CallArguments

variable {arguments : CallArguments}

/-- The names in a call, in order. -/
def names (arguments : CallArguments) : List String := arguments.items.filterMap (·.name)

/-- The parameters that a call does not name, in order. -/
def unnamedParameters (arguments : CallArguments) (parameters : List Parameter) :
    List Parameter :=
  parameters.filter fun parameter => parameter.name.name ∉ arguments.names

/-- The argument that the parameter at a position gets: the one with its name, or
else the unnamed one with as many unnamed ones before it as there are parameters
before the position that the call does not name. -/
def partner? (arguments : CallArguments) (parameters : List Parameter) (index : Nat) :
    Option CallArgument := do
  let parameter ← parameters[index]?
  if parameter.name.name ∈ arguments.names then
    arguments.items.find? fun argument => argument.name = some parameter.name.name
  else arguments.unnamed[(arguments.unnamedParameters (parameters.take index)).length]?

/-- A call fits a workflow: as many arguments as parameters, no name twice on
either side, no name without a parameter, and for every parameter a known type
and an argument of exactly this type. -/
structure Fits (arguments : CallArguments) (parameters : List Parameter) : Prop where
  count : arguments.items.length = parameters.length
  parametersOnce : (parameterNames parameters).Nodup
  namesOnce : arguments.names.Nodup
  namesKnown : ∀ name ∈ arguments.names, name ∈ parameterNames parameters
  typesKnown : ∀ parameter ∈ parameters, (Kind.ofName? parameter.typeName.name).isSome
  kinds : ∀ (index : Nat) (parameter : Parameter) (argument : CallArgument),
    parameters[index]? = some parameter → arguments.partner? parameters index = some argument →
      Kind.ofName? parameter.typeName.name = some argument.value.kind

/-! ## One parameter after the other -/

theorem named?_eq (arguments : CallArguments) (name : String) :
    arguments.named? name =
      arguments.items.find? fun argument => argument.name = some name := by
  unfold named?
  congr 1
  funext argument
  rw [Bool.eq_iff_iff]
  simp

theorem mem_names {name : String} :
    name ∈ arguments.names ↔ ∃ argument ∈ arguments.items, argument.name = some name := by
  simp [names, List.mem_filterMap]

theorem named?_isSome_iff {name : String} :
    (arguments.named? name).isSome ↔ name ∈ arguments.names := by
  rw [named?_eq, List.find?_isSome, mem_names]
  simp

theorem named?_eq_none_iff {name : String} :
    arguments.named? name = none ↔ name ∉ arguments.names := by
  rw [← named?_isSome_iff, Option.not_isSome_iff_eq_none]

/-- The argument for a parameter, and the unnamed arguments that are left. -/
def choose? (arguments : CallArguments) (parameter : Parameter) (unnamed : List CallArgument) :
    Option (CallArgument × List CallArgument) :=
  match arguments.named? parameter.name.name, unnamed with
  | some argument, unnamed => some (argument, unnamed)
  | none, argument :: unnamed => some (argument, unnamed)
  | none, [] => none

theorem choose?_eq_some {parameter : Parameter} {unnamed left : List CallArgument}
    {argument : CallArgument}
    (chooses : arguments.choose? parameter unnamed = some (argument, left)) :
    (parameter.name.name ∈ arguments.names ∧
      arguments.named? parameter.name.name = some argument ∧ left = unnamed) ∨
    (parameter.name.name ∉ arguments.names ∧ unnamed = argument :: left) := by
  unfold choose? at chooses
  split at chooses
  · next found =>
      cases chooses
      have named : parameter.name.name ∈ arguments.names := by
        rw [← named?_isSome_iff, found]
        rfl
      exact .inl ⟨named, found, rfl⟩
  · next missing =>
      cases chooses
      exact .inr ⟨named?_eq_none_iff.mp missing, rfl⟩
  · cases chooses

/-- The arguments for some parameters, when only some unnamed arguments are left. -/
def chooseAll? (arguments : CallArguments) :
    List Parameter → List CallArgument → Option (List CallArgument)
  | [], _ => some []
  | parameter :: rest, unnamed => do
      let (argument, left) ← arguments.choose? parameter unnamed
      (chooseAll? arguments rest left).map (argument :: ·)

theorem chooseAll?_cons {parameter : Parameter} {rest : List Parameter}
    {unnamed chosen : List CallArgument} :
    arguments.chooseAll? (parameter :: rest) unnamed = some chosen ↔
      ∃ argument left others, arguments.choose? parameter unnamed = some (argument, left) ∧
        arguments.chooseAll? rest left = some others ∧ chosen = argument :: others := by
  simp only [chooseAll?, Option.bind_eq_bind, Option.bind_eq_some_iff, Option.map_eq_some_iff,
    Prod.exists]
  constructor
  · intro ⟨argument, left, chooses, others, restChooses, same⟩
    exact ⟨argument, left, others, chooses, restChooses, same.symm⟩
  · intro ⟨argument, left, others, chooses, restChooses, same⟩
    exact ⟨argument, left, chooses, others, restChooses, same.symm⟩

theorem length_chooseAll? {parameters : List Parameter} {unnamed chosen : List CallArgument}
    (chooses : arguments.chooseAll? parameters unnamed = some chosen) :
    chosen.length = parameters.length := by
  induction parameters generalizing unnamed chosen with
  | nil =>
      cases chooses
      rfl
  | cons parameter rest ih =>
      obtain ⟨argument, left, others, -, restChooses, rfl⟩ := chooseAll?_cons.mp chooses
      simp [ih restChooses]

/-- What is chosen is, up to its order, the arguments with the names of parameters
and the first ones of those without a name. -/
theorem chooseAll?_perm {parameters : List Parameter} {unnamed chosen : List CallArgument}
    (chooses : arguments.chooseAll? parameters unnamed = some chosen) :
    chosen.Perm ((parameterNames parameters).filterMap arguments.named? ++
      unnamed.take (arguments.unnamedParameters parameters).length) := by
  induction parameters generalizing unnamed chosen with
  | nil =>
      cases chooses
      simp [parameterNames, unnamedParameters]
  | cons parameter rest ih =>
      obtain ⟨argument, left, others, first, restChooses, rfl⟩ := chooseAll?_cons.mp chooses
      have permuted := (ih restChooses).cons argument
      rcases choose?_eq_some first with ⟨named, found, rfl⟩ | ⟨notNamed, rfl⟩
      · simpa [parameterNames, unnamedParameters, found, named] using permuted
      · have missing := named?_eq_none_iff.mpr notNamed
        have moved := permuted.trans List.perm_middle.symm
        simpa [parameterNames, unnamedParameters, missing, notNamed] using moved

theorem chooseAll?_isSome_iff {parameters : List Parameter} {unnamed : List CallArgument} :
    (arguments.chooseAll? parameters unnamed).isSome ↔
      (arguments.unnamedParameters parameters).length ≤ unnamed.length := by
  induction parameters generalizing unnamed with
  | nil => simp [chooseAll?, unnamedParameters]
  | cons parameter rest ih =>
      by_cases named : parameter.name.name ∈ arguments.names
      · obtain ⟨argument, found⟩ := Option.isSome_iff_exists.mp (named?_isSome_iff.mpr named)
        have first : arguments.choose? parameter unnamed = some (argument, unnamed) := by
          simp [choose?, found]
        simpa [chooseAll?, first, unnamedParameters, named] using ih
      · have missing := named?_eq_none_iff.mpr named
        cases unnamed with
        | nil => simp [chooseAll?, choose?, missing, unnamedParameters, named]
        | cons argument left =>
            have first : arguments.choose? parameter (argument :: left) =
                some (argument, left) := by
              simp [choose?, missing]
            simpa [chooseAll?, first, unnamedParameters, named] using ih

/-- Choosing one parameter after the other gives each its partner. -/
theorem chooseAll?_getElem? {parameters : List Parameter} {unnamed chosen : List CallArgument}
    (chooses : arguments.chooseAll? parameters unnamed = some chosen) (index : Nat) :
    chosen[index]? = (parameters[index]?).bind fun parameter =>
      if parameter.name.name ∈ arguments.names then arguments.named? parameter.name.name
      else unnamed[(arguments.unnamedParameters (parameters.take index)).length]? := by
  induction parameters generalizing unnamed chosen index with
  | nil =>
      cases chooses
      simp
  | cons parameter rest ih =>
      obtain ⟨argument, left, others, first, restChooses, rfl⟩ := chooseAll?_cons.mp chooses
      rcases choose?_eq_some first with ⟨named, found, rfl⟩ | ⟨notNamed, rfl⟩
      · cases index with
        | zero => simp [named, found]
        | succ index => simpa [unnamedParameters, named] using ih restChooses index
      · cases index with
        | zero => simp [unnamedParameters, notNamed]
        | succ index => simpa [unnamedParameters, notNamed] using ih restChooses index

theorem partner?_of_chooseAll? {parameters : List Parameter} {chosen : List CallArgument}
    (chooses : arguments.chooseAll? parameters arguments.unnamed = some chosen) (index : Nat) :
    arguments.partner? parameters index = chosen[index]? := by
  rw [chooseAll?_getElem? chooses, partner?]
  simp only [named?_eq]
  rfl

/-! ## Counting -/

theorem length_items (arguments : CallArguments) :
    arguments.items.length = arguments.names.length + arguments.unnamed.length := by
  unfold names unnamed
  induction arguments.items with
  | nil => rfl
  | cons argument rest ih =>
      cases named : argument.name <;> simp [named, ih] <;> omega

/-- The names of parameters that a call names. -/
def namedParameters (arguments : CallArguments) (parameters : List Parameter) : List String :=
  (parameterNames parameters).filter (· ∈ arguments.names)

theorem length_parameters (arguments : CallArguments) (parameters : List Parameter) :
    parameters.length = (arguments.namedParameters parameters).length +
      (arguments.unnamedParameters parameters).length := by
  unfold namedParameters unnamedParameters parameterNames
  induction parameters with
  | nil => rfl
  | cons parameter rest ih =>
      by_cases named : parameter.name.name ∈ arguments.names <;> simp [named, ih] <;> omega

theorem namedParameters_perm {parameters : List Parameter}
    (parametersOnce : (parameterNames parameters).Nodup)
    (namesKnown : ∀ name ∈ arguments.names, name ∈ parameterNames parameters) :
    (arguments.namedParameters parameters).Perm arguments.names.dedup := by
  have once : (arguments.namedParameters parameters).Nodup := parametersOnce.filter _
  rw [List.perm_ext_iff_of_nodup once (List.nodup_dedup _)]
  intro name
  simp only [namedParameters, List.mem_filter, List.mem_dedup, decide_eq_true_eq]
  exact ⟨fun both => both.2, fun member => ⟨namesKnown name member, member⟩⟩

/-- When counts agree and all names are known, there are enough unnamed arguments
exactly if no name comes twice. -/
theorem chooseAll?_isSome_iff_nodup {parameters : List Parameter}
    (count : arguments.items.length = parameters.length)
    (parametersOnce : (parameterNames parameters).Nodup)
    (namesKnown : ∀ name ∈ arguments.names, name ∈ parameterNames parameters) :
    (arguments.chooseAll? parameters arguments.unnamed).isSome ↔ arguments.names.Nodup := by
  have different := (namedParameters_perm parametersOnce namesKnown).length_eq
  have shorter : arguments.names.dedup.length ≤ arguments.names.length :=
    (List.dedup_sublist _).length_le
  have items := arguments.length_items
  have split := arguments.length_parameters parameters
  rw [chooseAll?_isSome_iff]
  constructor
  · intro enough
    have same : arguments.names.dedup = arguments.names :=
      (List.dedup_sublist _).eq_of_length_le (by omega)
    exact List.dedup_eq_self.mp same
  · intro once
    rw [List.dedup_eq_self.mpr once] at different
    omega

/-- An argument is the one that its name leads to, if no name comes twice. -/
theorem find?_of_nodup {items : List CallArgument} (once : (items.filterMap (·.name)).Nodup)
    {argument : CallArgument} (member : argument ∈ items) {name : String}
    (named : argument.name = some name) :
    items.find? (fun other => other.name = some name) = some argument := by
  induction items with
  | nil => cases member
  | cons other rest ih =>
      rcases List.mem_cons.mp member with rfl | inRest
      · simp [named]
      · have appears : name ∈ rest.filterMap (·.name) :=
          List.mem_filterMap.mpr ⟨argument, inRest, named⟩
        have differs : other.name ≠ some name := by
          intro same
          rw [List.filterMap_cons_some same] at once
          exact (List.nodup_cons.mp once).1 appears
        have restOnce : (rest.filterMap (·.name)).Nodup := by
          cases otherNamed : other.name with
          | none => simpa [otherNamed] using once
          | some otherName =>
              rw [List.filterMap_cons_some otherNamed] at once
              exact (List.nodup_cons.mp once).2
        simpa [differs] using ih restOnce inRest

theorem filterMap_named? (once : arguments.names.Nodup) :
    arguments.names.filterMap arguments.named? =
      arguments.items.filter fun argument => argument.name.isSome := by
  rw [names, List.filterMap_filterMap, ← List.filterMap_eq_filter]
  apply List.filterMap_congr
  intro argument member
  cases named : argument.name with
  | none => simp [Option.guard, named]
  | some name => simp [Option.guard, named, named?_eq, find?_of_nodup once member named]

/-- Every argument is chosen exactly once. -/
theorem chooseAll?_perm_items {parameters : List Parameter} {chosen : List CallArgument}
    (count : arguments.items.length = parameters.length)
    (parametersOnce : (parameterNames parameters).Nodup)
    (namesKnown : ∀ name ∈ arguments.names, name ∈ parameterNames parameters)
    (chooses : arguments.chooseAll? parameters arguments.unnamed = some chosen) :
    chosen.Perm arguments.items := by
  have once : arguments.names.Nodup :=
    (chooseAll?_isSome_iff_nodup count parametersOnce namesKnown).mp (by simp [chooses])
  have named := namedParameters_perm parametersOnce namesKnown
  rw [List.dedup_eq_self.mpr once] at named
  -- Only names in the call lead to arguments, so the others can be left out.
  have chosenNamed : (parameterNames parameters).filterMap arguments.named? =
      (arguments.namedParameters parameters).filterMap arguments.named? := by
    rw [namedParameters, List.filterMap_filter]
    apply List.filterMap_congr
    intro name _
    by_cases member : name ∈ arguments.names
    · simp [member]
    · simp [member, named?_eq_none_iff.mpr member]
  have allUnnamed : arguments.unnamed.take (arguments.unnamedParameters parameters).length =
      arguments.unnamed := by
    have items := arguments.length_items
    have split := arguments.length_parameters parameters
    have sameLength := named.length_eq
    exact List.take_of_length_le (by omega)
  calc chosen
    _ |>.Perm ((arguments.namedParameters parameters).filterMap arguments.named? ++
          arguments.unnamed) := by
        simpa [chosenNamed, allUnnamed] using chooseAll?_perm chooses
    _ |>.Perm (arguments.names.filterMap arguments.named? ++ arguments.unnamed) :=
        (named.filterMap _).append_right _
    _ |>.Perm arguments.items := by
        rw [filterMap_named? once, unnamed]
        simpa using List.filter_append_perm (fun argument => argument.name.isSome) arguments.items

end CallArguments

end FlowScript
