import FlowScript.Value.Equality

/-!
# Construction, assignment and conversion

How a value of a kind comes from another value: `construct` makes the first value
of a variable, `assign` gives a variable a new one, `convert` makes a value of
another kind.
-/

set_option autoImplicit false

namespace FlowScript.Value

/-! ## Conversion -/

/-- The value as one of another kind, where that is defined. -/
def converted? (store : Store) (value : Value) (target : StoredKind) : Option Scalar :=
  match store.scalar? value, store.array? value, store.dictionary? value with
  | some value, _, _ => value.convert? target
  | none, some items, _ =>
      if target = .boolean then some (.boolean (!items.isEmpty)) else none
  | none, none, some entries =>
      if target = .boolean then some (.boolean (entries.size != 0)) else none
  | none, none, none => none

/-- Converts a value. A value that has the kind already is kept as it is. -/
def convert (value : Value) (target : Kind) : StoreExceptM Value := do
  let store ← get
  if value.kind = target then pure value
  else
    match target with
    | .stored kind =>
        match converted? store value kind with
        | some result => newScalar result
        | none => throw (.notConvertible value.kind target)
    | _ => throw (.notConvertible value.kind target)

/-- The truth of a value that is used as a condition. -/
def truth (value : Value) : StoreExceptM Bool := do
  let store ← get
  match store.boolean? value with
  | some answer => pure answer
  | none => do
      let result ← value.convert (.stored .boolean)
      let store ← get
      pure ((store.boolean? result).getD false)

/-! ## Construction -/

def number? (store : Store) (value : Value) : Option Number :=
  (store.scalar? value).bind Scalar.number?

/-- The value a variable starts with when no other is given. -/
def initial (now : Instant) : StoredKind → Cell
  | .boolean => .scalar (.boolean false)
  | .integer => .scalar (.integer 0)
  | .real => .scalar (.real 0.0)
  | .string => .scalar (.string "")
  | .duration => .scalar (.duration ⟨0, .ms⟩)
  | .timePoint => .scalar (.timePoint now)
  | .array => .array []
  | .dictionary | .host _ => .dictionary .empty

def readTimePoint (text : String) : Except Cause Scalar :=
  match Instant.read? text with
  | some instant => .ok (.timePoint instant)
  | none => .error (.invalidTimePoint text)

/-- The contents of a new value of a kind, made from a stored value. Numbers
convert into each other, dictionary-shaped values likewise; a duration can be
made from its milliseconds and a point in time from its text. -/
def constructedCell (kind : StoredKind) (argument : Value) : StoreExceptM Cell := do
  let store ← get
  let mismatch := Cause.constructionMismatch (.stored kind) argument.kind
  let copy : StoreExceptM Cell := do
    match ← argument.detachedCell? with
    | some cell => pure cell
    | none => throw mismatch
  match kind with
  | .integer | .real =>
      match (number? store argument).bind (Scalar.convertNumber? · kind) with
      | some result => pure (.scalar result)
      | none => throw mismatch
  | .duration =>
      match store.integer? argument with
      | some millis =>
          match Duration.ofMillis millis.toInt with
          | .ok result => pure (.scalar (.duration result))
          | .error fault => throw fault.cause
      | none => if argument.kind = .stored kind then copy else throw mismatch
  | .timePoint =>
      match store.string? argument with
      | some text =>
          match readTimePoint text with
          | .ok result => pure (.scalar result)
          | .error cause => throw cause
      | none => if argument.kind = .stored kind then copy else throw mismatch
  | .dictionary | .host _ =>
      if (store.dictionary? argument).isSome then copy else throw mismatch
  | .boolean | .string | .array =>
      if argument.kind = .stored kind then copy else throw mismatch

/-- Makes the first value of a variable of a kind. Without an initial value there
is a default one; an error takes the place of any value. -/
def construct (now : Instant) (kind : Kind) (argument : Value) : StoreExceptM Value := do
  let store ← get
  match kind with
  | .stored kind =>
      match argument with
      | .void => allocate kind (initial now kind)
      | .error _ _ _ => pure argument
      | _ => do
          let cell ← constructedCell kind argument
          allocate kind cell
  | .error =>
      match argument with
      | .void => newError "" none
      | .error _ _ _ => pure argument
      | _ =>
          match store.string? argument with
          | some message => newError message none
          | none => throw (.constructionMismatch kind argument.kind)
  | .void =>
      match argument with
      | .void => pure .void
      | _ => throw (.constructionMismatch kind argument.kind)
  | .memberFunction | .freeFunction | .workflow | .workflowInvocation =>
      throw (.notConstructible kind)

/-! ## Assignment -/

/-- The number as a value of a numeric kind. Integers are kept exactly. -/
def assignedNumber (kind : StoredKind) : Number → Option Scalar
  | .integer value => if kind = .integer then some (.integer value)
      else if kind = .real then some (.real (Real.ofInt64 value)) else none
  | .real value => if kind = .integer then some (.integer (Real.toInt64 value))
      else if kind = .real then some (.real value) else none

/-- Writes through the target when both values have the same kind. Callables
have no cell, and a copy takes the target's place. -/
def assignSame (target source : Value) : StoreExceptM Value := do
  if target.kind = source.kind then
    if ← target.overwrite source then pure target else source.detach
  else throw (.assignmentMismatch target.kind source.kind)

/-- Gives `target` the value of `source` and answers with what the variable holds
from then on. Contents are written in place; an error takes the place of any
value. -/
def assign (target source : Value) : StoreExceptM Value := do
  let store ← get
  let mismatch := Cause.assignmentMismatch target.kind source.kind
  if source.isError then pure source
  else
    match target with
    | .stored kind address =>
        match kind with
        | .integer | .real =>
            match (number? store source).bind (assignedNumber kind) with
            | some value => do
                modify (·.write address (.scalar value))
                pure target
            | none => throw mismatch
        | .dictionary | .host _ =>
            if (store.dictionary? source).isSome then
              match ← source.detachedCell? with
              | some cell => do
                  modify (·.write address cell)
                  pure target
              | none => throw mismatch
            else throw mismatch
        | _ => assignSame target source
    | _ => assignSame target source

end FlowScript.Value
