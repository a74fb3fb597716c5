import FlowScript.Proofs.Guard.Evaluation

/-!
# Computations that fail at known spans

A pending call carries spans of its own: those of its workflow, of its arguments and of
the call. While all spans that the values of a machine carry are known, so are the
places of faults, as long as every computation that can fail is given a known span.
-/

set_option autoImplicit false

namespace FlowScript

variable {known : List Span}

/-- All spans at which calling or awaiting the value can fail are known. -/
inductive Value.Known (known : List Span) : Value → Prop where
  | void : Known known .void
  | error {tag : Nat} {message : String} {location : Option Span} :
      Known known (.error tag message location)
  | stored {kind : StoredKind} {address : Nat} : Known known (.stored kind address)
  | member {function : MemberFunction} {receiver : Value} :
      Known known receiver → Known known (.member function receiver)
  | builtin {function : Builtin} : Known known (.builtin function)
  | workflow {definition : Workflow} :
      definition.spans ⊆ known → Known known (.workflow definition)
  | invocation {tag : Nat} {definition : Workflow} {arguments : CallArguments}
      {location : Span} :
      definition.spans ⊆ known →
      (∀ argument ∈ arguments.items, argument.location ∈ known) →
      (∀ argument ∈ arguments.items, Known known argument.value) →
      location ∈ known →
      Known known (.invocation tag definition arguments location)

namespace Store

variable {store : Store} {cell : Cell}

def Known (known : List Span) (store : Store) : Prop := ∀ value ∈ store.values, value.Known known

theorem Known.push (storeKnown : store.Known known)
    (inside : ∀ value ∈ cell.values, value.Known known) : (store.push cell).Known known := by
  intro value member
  rw [values_push] at member
  rcases List.mem_append.mp member with old | new
  · exact storeKnown value old
  · exact inside value new

theorem Known.write (storeKnown : store.Known known)
    (inside : ∀ value ∈ cell.values, value.Known known) (address : Nat) :
    (store.write address cell).Known known := by
  intro value member
  rcases mem_values_write member with old | new
  · exact storeKnown value old
  · exact inside value new

end Store

def knownStores (known : List Span) : StoreGuard where
  holds := Store.Known known
  good := Value.Known known
  void := .void
  error _ _ _ := .error
  member_iff := by
    refine ⟨fun valueKnown => ?_, .member⟩
    cases valueKnown with
    | member receiver => exact receiver
  push storeKnown inside := ⟨storeKnown.push inside, fun _ => .stored⟩
  tag _ storeKnown := storeKnown
  write storeKnown _ inside := storeKnown.write inside _
  cell storeKnown _ found value member := storeKnown value (Store.values_of_cell found member)

/-- The spans in the values of a machine are known, and faults show at known spans. -/
def knownSpans (known : List Span) : Guard where
  toStoreGuard := knownStores known
  lent := Value.Known known
  place span := span ∈ known
  workflow_iff := by
    refine ⟨fun valueKnown => ?_, fun spans => .workflow fun _ => spans _⟩
    cases valueKnown with
    | workflow spans => exact fun _ member => spans member
  invocation_iff := by
    refine ⟨fun valueKnown => ?_, fun ⟨spans, arguments, called⟩ => .invocation (fun _ => spans _)
      (fun argument member => (arguments argument member).1)
      (fun argument member => (arguments argument member).2) called⟩
    cases valueKnown with
    | invocation spans locations values called =>
        exact ⟨fun _ member => spans member,
          fun argument member => ⟨locations argument member, values argument member⟩, called⟩
  lent_of_good valueKnown := valueKnown
  detach valueKnown := (knownStores known).cells.hands_detach valueKnown

end FlowScript
