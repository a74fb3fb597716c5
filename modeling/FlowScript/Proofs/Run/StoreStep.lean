import FlowScript.Proofs.Guard.Cell
import FlowScript.Proofs.Run.Walk

/-!
# What evaluation does to the store

Whatever a program does, the store is changed in a few ways only, each of them in one go.
A guard that lets all values through holds after each of them.
-/

set_option autoImplicit false

namespace FlowScript

/-- Puts a value under a key of a dictionary-shaped value, whose cell has the given address. -/
def Store.putEntry (parent : Value) (address : Nat) (key : String) (value : Value)
    (store : Store) : Store :=
  match store.dictionary? parent with
  | some entries => store.write address (.dictionary (entries.insert key value))
  | none => store

/-- What evaluation does to the store in one go. -/
inductive StoreStep : {α : Type} → StoreM α → Prop where
  | scalar (value : Scalar) : StoreStep (newScalar value)
  | array (items : List Value) : StoreStep (newArray items)
  /-- A dictionary is made by inserting its entries one after another. -/
  | dictionary (entries : List (String × Value)) :
      StoreStep (newDictionary .dictionary (.ofList entries))
  | reply (kind : HostKind) (members : JsonObject) : StoreStep (do
      let entries ← Value.ofJsonObject members
      newDictionary (.host kind) entries)
  | error (message : String) (location : Option Span) : StoreStep (newError message location)
  | invocation (definition : Workflow) (arguments : CallArguments) (location : Span) :
      StoreStep (newInvocation definition arguments location)
  | detach (value : Value) : StoreStep value.detach
  | property (value : Value) (name : String) : StoreStep (value.property name).run
  | member (function : MemberFunction) (receiver : Value) (arguments : CallArguments) :
      StoreStep (receiver.callMember function arguments).run
  | unary (op : UnaryOperator) (operand : Value) : StoreStep (operand.unary op).run
  | binary (op : BinaryOperator) (left right : Value) : StoreStep (left.binary op right).run
  | truth (value : Value) : StoreStep value.truth.run
  | construct (now : Instant) (kind : Kind) (argument : Value) :
      StoreStep (Value.construct now kind argument).run
  | assign (target source : Value) : StoreStep (target.assign source).run
  | entry (parent : Value) (address : Nat) (key : String) (value : Value) :
      StoreStep (modify (Store.putEntry parent address key value))

/-- Evaluation keeps a store under any guard that lets all values through. -/
theorem StoreStep.keeps {α : Type} {action : StoreM α} (step : StoreStep action)
    (guard : WriteGuard) (all : ∀ value, guard.good value) {store : Store}
    (start : guard.holds store) : guard.holds (action.run store).2 := by
  have final : ∀ {α : Type} {action : StoreM α} {post : α → Prop}, guard.Hands action post →
      guard.holds (action.run store).2 := fun hands => (hands store start).1
  cases step with
  | scalar value => exact final (guard.hands_newScalar value)
  | array items =>
      exact final (guard.hands_allocate .array (guard.array fun item _ => all item))
  | dictionary entries =>
      have fits : guard.fits (.dictionary (.ofList entries)) :=
        guard.fits_ofList fun value _ => all value
      exact final (guard.hands_allocate .dictionary fits)
  | reply kind members =>
      exact final (.bind (guard.hands_ofJsonObject members) fun _ fits =>
        guard.hands_allocate (.host kind) fits)
  | error message location => exact final (guard.hands_newError message location)
  | invocation definition arguments location =>
      exact final (guard.hands_newInvocation fun _ => all _)
  | detach value => exact final (guard.hands_detach (all value))
  | property value name => exact final (guard.hands_property (all value) name)
  | member function receiver arguments =>
      exact final (guard.hands_callMember function (all receiver) fun _ _ => all _)
  | unary op operand => exact final (guard.hands_unary op operand)
  | binary op left right => exact final (guard.hands_binary op left right)
  | truth value => exact final (guard.hands_truth (all value))
  | construct now kind argument => exact final (guard.hands_construct now kind (all argument))
  | assign target source => exact final (guard.hands_assign (all target) (all source))
  | entry parent address key value =>
      change guard.holds (store.putEntry parent address key value)
      unfold Store.putEntry
      split
      · next entries found =>
          have fits : guard.fits (.dictionary (entries.insert key value)) :=
            guard.insert (guard.fits_dictionary start (all parent) found) (all value)
          exact guard.write start (all (.stored .dictionary address)) fits
      · exact start

end FlowScript
