import FlowScript.Value.Dictionary
import FlowScript.Value.Scalar

/-!
# Values and their storage

Most values keep their contents in a cell of a store, and a copy of such a value
refers to the same cell: what is written through one is seen through all. Errors
and pending workflow calls never change, but each has a tag of its own by which
it can be told from an equal one.
-/

set_option autoImplicit false

namespace FlowScript

mutual

inductive Value where
  | void
  /-- An error a script can handle, and where it was raised. -/
  | error (tag : Nat) (message : String) (location : Option Span)
  /-- A value whose contents are in the cell with the given address. -/
  | stored (kind : StoredKind) (address : Nat)
  /-- A function looked up on a value. -/
  | member (function : MemberFunction) (receiver : Value)
  | builtin (function : Builtin)
  | workflow (definition : Workflow)
  /-- A call of a workflow, which runs once it is awaited. -/
  | invocation (tag : Nat) (definition : Workflow) (arguments : CallArguments)
      (location : Span)

/-- An argument after evaluation. Positions count named arguments too. -/
structure CallArgument where
  index : Nat
  name : Option String
  value : Value
  location : Span

/-- The arguments of one call, and where their list stands. -/
structure CallArguments where
  items : List CallArgument
  location : Span

end

namespace Value

def kind : Value → Kind
  | .void => .void
  | .error _ _ _ => .error
  | .stored kind _ => .stored kind
  | .member _ _ => .memberFunction
  | .builtin _ => .freeFunction
  | .workflow _ => .workflow
  | .invocation _ _ _ _ => .workflowInvocation

def isError : Value → Bool
  | .error _ _ _ => true
  | _ => false

def isVoid : Value → Bool
  | .void => true
  | _ => false

/-- Holds when both values are the same stored contents, the same error or the
same pending call. -/
def shares : Value → Value → Bool
  | .stored _ left, .stored _ right => left == right
  | .error left _ _, .error right _ _ => left == right
  | .invocation left _ _ _, .invocation right _ _ _ => left == right
  | _, _ => false

end Value

namespace CallArguments

def empty (location : Span) : CallArguments := ⟨[], location⟩

def push (arguments : CallArguments) (name : Option String) (value : Value)
    (location : Span) : CallArguments :=
  ⟨arguments.items ++ [⟨arguments.items.length, name, value, location⟩], arguments.location⟩

def named? (arguments : CallArguments) (name : String) : Option CallArgument :=
  arguments.items.find? fun argument => argument.name == some name

def unnamed (arguments : CallArguments) : List CallArgument :=
  arguments.items.filter fun argument => argument.name.isNone

/-- The argument with the given name, or else the one at the given position if
that has no name. -/
def namedOrAt? (arguments : CallArguments) (name : String) (index : Nat) :
    Option CallArgument :=
  match arguments.named? name with
  | some argument => some argument
  | none => (arguments.items[index]?).filter fun argument => argument.name.isNone

/-- The value of an argument that a function needs. -/
def require (arguments : CallArguments) (name : String) (index : Nat) :
    Except Cause Value :=
  match arguments.namedOrAt? name index with
  | some argument => .ok argument.value
  | none => .error (.missingArgument name)

end CallArguments

/-- The contents of a stored value. -/
inductive Cell where
  | scalar (value : Scalar)
  | array (items : List Value)
  | dictionary (entries : Dictionary Value)

/-- Replaces every value in a cell by the result of a computation, in order. -/
def Cell.mapM {m : Type → Type} [Monad m] (cell : Cell) (f : Value → m Value) : m Cell :=
  match cell with
  | .scalar value => pure (.scalar value)
  | .array items => do
      let items ← items.mapM f
      pure (.array items)
  | .dictionary entries => do
      let entries ← entries.mapM f
      pure (.dictionary entries)

/-- The cells of all stored values, and the next unused tag. -/
structure Store where
  cells : Array Cell
  nextTag : Nat

namespace Store

def empty : Store := ⟨#[], 0⟩

def cell? (store : Store) (address : Nat) : Option Cell := store.cells[address]?

def write (store : Store) (address : Nat) (cell : Cell) : Store :=
  { store with cells := store.cells.setIfInBounds address cell }

/-- A value without parts, if that is what the value is. -/
def scalar? (store : Store) : Value → Option Scalar
  | .stored _ address =>
      match store.cell? address with
      | some (.scalar value) => some value
      | _ => none
  | _ => none

def array? (store : Store) : Value → Option (List Value)
  | .stored _ address =>
      match store.cell? address with
      | some (.array items) => some items
      | _ => none
  | _ => none

/-- The entries of a dictionary-shaped value. -/
def dictionary? (store : Store) : Value → Option (Dictionary Value)
  | .stored _ address =>
      match store.cell? address with
      | some (.dictionary entries) => some entries
      | _ => none
  | _ => none

def boolean? (store : Store) (value : Value) : Option Bool :=
  match store.scalar? value with
  | some (.boolean value) => some value
  | _ => none

def string? (store : Store) (value : Value) : Option String :=
  match store.scalar? value with
  | some (.string value) => some value
  | _ => none

def integer? (store : Store) (value : Value) : Option Int64 :=
  match store.scalar? value with
  | some (.integer value) => some value
  | _ => none

def duration? (store : Store) (value : Value) : Option Duration :=
  match store.scalar? value with
  | some (.duration value) => some value
  | _ => none

/-- How deep a walk over stored values can get. Values never contain themselves,
so a walk meets every cell at most once on its way down. -/
def walkDepth (store : Store) : Nat := store.cells.size + 1

end Store

/-- A computation on the store that cannot fail. -/
abbrev StoreM := StateM Store

/-- A computation on the store that can fail. What it wrote before it failed
stays written. -/
abbrev StoreExceptM := ExceptT Cause StoreM

def allocate (kind : StoredKind) (cell : Cell) : StoreM Value :=
  modifyGet fun store =>
    (.stored kind store.cells.size, { store with cells := store.cells.push cell })

def newScalar (value : Scalar) : StoreM Value := allocate value.kind (.scalar value)

def newArray (items : List Value) : StoreM Value := allocate .array (.array items)

def newDictionary (kind : StoredKind) (entries : Dictionary Value) : StoreM Value :=
  allocate kind (.dictionary entries)

/-- A tag that no value has yet. -/
def freshTag : StoreM Nat :=
  modifyGet fun store => (store.nextTag, { store with nextTag := store.nextTag + 1 })

def newError (message : String) (location : Option Span) : StoreM Value := do
  let tag ← freshTag
  pure (.error tag message location)

def newInvocation (definition : Workflow) (arguments : CallArguments) (location : Span) :
    StoreM Value := do
  let tag ← freshTag
  pure (.invocation tag definition arguments location)

namespace Value

/-! ## Copies -/

/-- A copy of a value that shares no cell with it, down to the given depth.
Errors, callables and pending calls are shared by their copies. -/
def detachTo : Nat → Value → StoreM Value
  | 0, value => pure value
  | depth + 1, .stored kind address => do
      let store ← get
      match store.cell? address with
      | some cell => do
          let copy ← cell.mapM (detachTo depth)
          allocate kind copy
      | none => pure (.stored kind address)
  | _ + 1, value => pure value

/-- A deep copy whose cells nobody else refers to. -/
def detach (value : Value) : StoreM Value := do
  let store ← get
  detachTo store.walkDepth value

/-- A deep copy of the contents of a stored value. -/
def detachedCell? (value : Value) : StoreM (Option Cell) := do
  let store ← get
  match value with
  | .stored _ address =>
      match store.cell? address with
      | some cell => do
          let copy ← cell.mapM (detachTo store.walkDepth)
          pure (some copy)
      | none => pure none
  | _ => pure none

/-- Replaces the contents of a value by a deep copy of another one's. Nothing
happens, and the answer is `false`, when the kinds differ or have no cell. -/
def overwrite (target source : Value) : StoreM Bool := do
  match target, source with
  | .stored targetKind address, .stored sourceKind _ =>
      if targetKind = sourceKind then
        match ← source.detachedCell? with
        | some cell => do
            modify (·.write address cell)
            pure true
        | none => pure false
      else pure false
  | .void, .void => pure true
  | _, _ => pure false

/-! ## Text -/

def callableName : Value → String
  | .member function _ => function.name
  | .builtin function => function.name
  | .workflow definition => definition.name.name
  | .invocation _ definition _ _ => definition.name.name
  | _ => ""

/-- The text of a value, down to the given depth. -/
def renderTo : Nat → Store → Value → String
  | 0, _, _ => ""
  | depth + 1, store, value =>
      match value with
      | .void => "void"
      | .error _ message _ => message
      | .stored _ address =>
          match store.cell? address with
          | some (.scalar value) => value.render
          | some (.array items) =>
              "[" ++ ", ".intercalate (items.map (renderTo depth store)) ++ "]"
          | some (.dictionary entries) =>
              "(" ++ ", ".intercalate (entries.entries.map fun (key, value) =>
                key ++ "=" ++ renderTo depth store value) ++ ")"
          | none => ""
      | callable => callable.kind.name ++ "(" ++ callable.callableName ++ ")"

def render (store : Store) (value : Value) : String := renderTo store.walkDepth store value

end Value

end FlowScript
