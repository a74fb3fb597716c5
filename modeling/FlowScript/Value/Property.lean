import FlowScript.Value.Conversion

/-!
# Properties and member functions

What stands behind the dot of a path: first the properties of the value's kind,
then its functions, then the entries of a dictionary.
-/

set_option autoImplicit false

namespace FlowScript.Value

def size (store : Store) (value : Value) : Nat :=
  match store.string? value, store.array? value, store.dictionary? value with
  | some text, _, _ => text.length
  | none, some items, _ => items.length
  | none, none, some entries => entries.size
  | none, none, none => 0

def staticProperty (value : Value) : StoreM Value := do
  let store ← get
  match value with
  | .error _ message _ => newScalar (.string message)
  | _ => newScalar (.integer (Int64.ofNat (value.size store)))

/-- Looks a property up. The entries of a dictionary are not copied, so that a
write to what was found is a write to the dictionary. -/
def property (value : Value) (name : String) : StoreExceptM Value := do
  let store ← get
  if value.kind.properties.contains name then value.staticProperty
  else
    match value.kind.members.find? (·.name == name) with
    | some function => pure (.member function value)
    | none =>
        match (store.dictionary? value).bind (·.get? name) with
        | some entry => pure entry
        | none => throw (.propertyNotFound name)

/-- Adds a copy of the argument to an array. -/
def push (receiver : Value) (arguments : CallArguments) : StoreExceptM Value := do
  let value ← arguments.require "value" 0
  let item ← value.detach
  let store ← get
  match receiver, store.array? receiver with
  | .stored _ address, some items => do
      modify (·.write address (.array (items ++ [item])))
      pure .void
  | _, _ => throw .pushReceiver

/-- Puts a copy of an argument into a dictionary. -/
def insert (receiver : Value) (arguments : CallArguments) : StoreExceptM Value := do
  let key ← arguments.require "key" 0
  let store ← get
  match store.string? key with
  | none => throw .dictionaryKey
  | some key => do
      let value ← arguments.require "value" 1
      let entry ← value.detach
      let store ← get
      match receiver, store.dictionary? receiver with
      | .stored _ address, some entries => do
          modify (·.write address (.dictionary (entries.insert key entry)))
          pure .void
      | _, _ => throw .insertReceiver

def callMember (function : MemberFunction) (receiver : Value) (arguments : CallArguments) :
    StoreExceptM Value :=
  match function with
  | .push => receiver.push arguments
  | .insert => receiver.insert arguments

end FlowScript.Value
