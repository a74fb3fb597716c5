import FlowScript.Proofs.Run.Walk
import FlowScript.Proofs.Storage.Preservation

/-!
# Calls keep machines sound

Looking a path up, calling a value and binding parameters leave a sound machine
sound, however they end.
-/

set_option autoImplicit false

namespace FlowScript

open RunM

variable {allowed : Workflow → Prop} {machine : Machine}

def InBounds (allowed : Workflow → Prop) (value : Value) (machine : Machine) : Prop :=
  value.Within allowed machine.size

/-! ## Names and calls -/

theorem followPath_preserves (sound : machine.Sound allowed) {value : Value}
    (within : value.Within allowed machine.size) (segments : List Identifier) :
    Preserves allowed machine (followPath value segments) machine (InBounds allowed) := by
  induction segments generalizing value machine with
  | nil => exact .pure sound (.refl machine) within
  | cons segment rest ih =>
      refine .bind (.refl machine)
        (.onStoreAt sound (.refl machine)
          (Value.property_yields sound.store within segment.name)) ?_
      rintro next after afterSound kept - ⟨-, nextWithin⟩
      exact (ih afterSound nextWithin).rebase kept

theorem resolve_preserves (sound : machine.Sound allowed) (head : Identifier)
    (tail : List Identifier) :
    Preserves allowed machine (resolve head tail) machine (InBounds allowed) := by
  unfold resolve
  refine .getScopes ?_
  split
  · next value found =>
      exact followPath_preserves sound (sound.bindings value (ScopeStack.lookup?_mem found)) tail
  · exact .throw sound (.refl machine)

theorem resolveKind_preserves (sound : machine.Sound allowed) (name : Identifier) :
    Preserves allowed machine (resolveKind name) machine fun _ final => final = machine := by
  unfold resolveKind
  split
  · exact .pure sound (.refl machine) rfl
  · exact .throw sound (.refl machine)

theorem callBuiltin_preserves (sound : machine.Sound allowed) (function : Builtin)
    (arguments : CallArguments) (span : Span) :
    Preserves allowed machine (callBuiltin function arguments span) machine
      (InBounds allowed) := by
  unfold callBuiltin
  refine .getStore ?_
  cases function with
  | print | println =>
      refine .reportThen sound (.refl machine) ?_
      rintro after afterSound kept -
      exact .pure afterSound kept .void
  | panic => exact .throw sound (.refl machine)
  | strFormat =>
      have formatted : Preserves allowed machine
          (ofExcept (Format.apply machine.store arguments) span) machine fun _ _ => True :=
        .ofExcept sound (.refl machine) fun _ _ => trivial
      refine formatted.bindBase ?_
      rintro text after afterSound kept -
      refine (Preserves.onStore afterSound kept
        ((newScalar_copied afterSound.store _).imp fun _ _ copied => copied.gives)).imp ?_
      rintro value final - ⟨-, gives⟩
      exact gives.within

theorem callValue_preserves (sound : machine.Sound allowed) {callee : Value}
    (calleeWithin : callee.Within allowed machine.size) (path : Path) {arguments : CallArguments}
    (within : arguments.Within allowed machine.size) (span : Span) :
    Preserves allowed machine (callValue callee path arguments span) machine
      (InBounds allowed) := by
  cases calleeWithin with
  | builtin =>
      refine .reportThen sound (.refl machine) ?_
      rintro after afterSound kept -
      exact (callBuiltin_preserves afterSound _ arguments span).rebase kept
  | member receiverWithin =>
      refine .reportThen sound (.refl machine) ?_
      intro after afterSound kept store
      have sameSize : after.store.size = machine.size := congrArg Store.size store
      refine (Preserves.onStoreAt afterSound kept (Value.callMember_yields afterSound.store _
        (sameSize ▸ receiverWithin) (sameSize ▸ within))).imp ?_
      rintro value final - ⟨-, valueWithin⟩
      exact valueWithin
  | workflow known =>
      refine (Preserves.onStore sound (.refl machine)
        ((newInvocation_copied sound.store known within span).imp
          fun _ _ copied => copied.gives)).imp ?_
      rintro value final - ⟨-, gives⟩
      exact gives.within
  | void | error | stored | invocation => exact .throw sound (.refl machine)

/-! ## Parameters and results -/

theorem chooseArgument_preserves (sound : machine.Sound allowed) {arguments : CallArguments}
    (within : arguments.Within allowed machine.size) (location : Span) (parameter : Parameter)
    {unnamed : List CallArgument}
    (unnamedWithin : ∀ argument ∈ unnamed, argument.value.Within allowed machine.size) :
    Preserves allowed machine (chooseArgument arguments location parameter unnamed) machine
      fun chosen final => final = machine ∧ chosen.1.value.Within allowed machine.size ∧
        ∀ other ∈ chosen.2, other.value.Within allowed machine.size := by
  unfold chooseArgument
  split
  · next argument found =>
      exact .pure sound (.refl machine) ⟨rfl, within.named found, unnamedWithin⟩
  · next argument left _ =>
      refine .pure sound (.refl machine) ⟨rfl, unnamedWithin _ List.mem_cons_self, ?_⟩
      exact fun other member => unnamedWithin other (List.mem_cons_of_mem _ member)
  · exact .throw sound (.refl machine)

theorem bindArgument_preserves (sound : machine.Sound allowed) (parameter : Parameter)
    (expected : Kind) {argument : CallArgument}
    (within : argument.value.Within allowed machine.size) :
    Preserves allowed machine (bindArgument parameter expected argument) machine
      fun _ _ => True := by
  unfold bindArgument
  split
  · refine .bind (.refl machine) (.onStore sound (.refl machine)
      ((Value.detach_copied sound.store within).imp fun _ _ copied => copied.gives)) ?_
    rintro copy after afterSound kept - ⟨scopes, gives⟩
    exact .declare afterSound kept gives.within
      (sound.loose_store scopes (Nat.le_refl _) gives.loose)
  · exact .throw sound (.refl machine)

theorem bindEach_preserves (sound : machine.Sound allowed) {arguments : CallArguments}
    (within : arguments.Within allowed machine.size) (location : Span)
    (parameters : List Parameter) {unnamed : List CallArgument}
    (unnamedWithin : ∀ argument ∈ unnamed, argument.value.Within allowed machine.size) :
    Preserves allowed machine (bindEach arguments location parameters unnamed) machine
      fun _ _ => True := by
  induction parameters generalizing machine unnamed with
  | nil => exact .pure sound (.refl machine) trivial
  | cons parameter rest ih =>
      rw [bindEach_cons]
      refine .bind (.refl machine) (resolveKind_preserves sound parameter.typeName) ?_
      rintro expected after - - - rfl
      refine .bindBase (chooseArgument_preserves sound within location parameter unnamedWithin) ?_
      rintro ⟨argument, left⟩ same - - ⟨rfl, argumentWithin, leftWithin⟩
      refine .bindBase (bindArgument_preserves sound parameter expected argumentWithin) ?_
      rintro - final finalSound kept -
      exact (ih finalSound (fun other member => (within other member).mono kept.size_le)
        (fun other member => (leftWithin other member).mono kept.size_le)).rebase kept

theorem bindParameters_preserves (sound : machine.Sound allowed) (definition : Workflow)
    {arguments : CallArguments} (within : arguments.Within allowed machine.size)
    (location : Span) :
    Preserves allowed machine (bindParameters definition arguments location) machine
      fun _ _ => True := by
  unfold bindParameters
  dsimp only
  split
  · split
    · exact .throw sound (.refl machine)
    · refine bindEach_preserves sound within location _ fun argument member => ?_
      exact within argument (List.mem_of_mem_filter member)
  · exact .throw sound (.refl machine)

theorem checkResult_preserves (sound : machine.Sound allowed) (definition : Workflow)
    {result : Option Value} (within : ∀ value, result = some value →
      value.Within allowed machine.size) (location : Span) :
    Preserves allowed machine (checkResult definition result location) machine
      (InBounds allowed) := by
  have declares : Preserves allowed machine (declaredKind definition) machine
      fun _ final => final = machine := by
    unfold declaredKind
    split
    · exact resolveKind_preserves sound _
    · exact .pure sound (.refl machine) rfl
  rw [checkResult_eq]
  refine declares.bindBase ?_
  rintro declared after - - rfl
  unfold fitResult
  split
  · split
    · exact .pure sound (.refl after) .void
    · exact .throw sound (.refl after)
  · next value =>
      split
      · exact .pure sound (.refl after) (within value rfl)
      · exact .throw sound (.refl after)

end FlowScript
