/-!
# Dictionaries

Maps from strings that keep the order in which keys were first inserted. A key
that is inserted again keeps its place and takes the new value.
-/

set_option autoImplicit false

namespace FlowScript

/-- Entries of a map in the order of their first insertion. -/
structure Dictionary (α : Type) where
  entries : List (String × α)
  deriving Repr

namespace Dictionary

variable {α β : Type}

def empty : Dictionary α := ⟨[]⟩

def size (dictionary : Dictionary α) : Nat := dictionary.entries.length

def keys (dictionary : Dictionary α) : List String := dictionary.entries.map (·.1)

def find? (key : String) : List (String × α) → Option α
  | [] => none
  | (other, value) :: rest => if other = key then some value else find? key rest

def get? (dictionary : Dictionary α) (key : String) : Option α :=
  find? key dictionary.entries

def contains (dictionary : Dictionary α) (key : String) : Bool :=
  (dictionary.get? key).isSome

/-- Puts a value under a key of a list of entries, at the end if the key is new. -/
def put (key : String) (value : α) : List (String × α) → List (String × α)
  | [] => [(key, value)]
  | (other, old) :: rest =>
      if other = key then (other, value) :: rest else (other, old) :: put key value rest

/-- Inserts a value, or replaces the one under its key. -/
def insert (dictionary : Dictionary α) (key : String) (value : α) : Dictionary α :=
  ⟨put key value dictionary.entries⟩

def ofList (entries : List (String × α)) : Dictionary α :=
  entries.foldl (fun dictionary entry => dictionary.insert entry.1 entry.2) empty

/-- Replaces every value by the result of a computation, in order. -/
def mapM {m : Type → Type} [Monad m] (dictionary : Dictionary α) (f : α → m β) :
    m (Dictionary β) := do
  let entries ← dictionary.entries.mapM fun (key, value) => do
    let result ← f value
    pure (key, result)
  pure ⟨entries⟩

end Dictionary

end FlowScript
