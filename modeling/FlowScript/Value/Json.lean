import FlowScript.Json
import FlowScript.Value.Basic

/-!
# Values as JSON

The form in which values travel to the host and back. Durations become their
milliseconds, points in time their text, errors an object with a message;
callables have no form and become `null`. A number read back is an integer if it
is written as one and fits in a word.
-/

set_option autoImplicit false

namespace FlowScript.Value

def scalarToJson : Scalar → Json
  | .boolean value => .bool value
  | .integer value => .integer value.toInt
  | .real value => if value.isFinite then .real value else .null
  | .string value => .string value
  | .duration value => .integer value.millis
  | .timePoint value => .string value.render

/-- The JSON form of a value, down to the given depth. -/
def toJsonTo : Nat → Store → Value → Json
  | 0, _, _ => .null
  | depth + 1, store, value =>
      match value with
      | .error _ message _ => .object [("error", .string message)]
      | .stored _ address =>
          match store.cell? address with
          | some (.scalar value) => scalarToJson value
          | some (.array items) => .array (items.map (toJsonTo depth store))
          | some (.dictionary entries) =>
              .object (entries.entries.map fun (key, value) => (key, toJsonTo depth store value))
          | none => .null
      | _ => .null

def toJson (store : Store) (value : Value) : Json := toJsonTo store.walkDepth store value

/-- The JSON object of a dictionary-shaped value. -/
def toJsonObject? (store : Store) (value : Value) : Option JsonObject :=
  match toJson store value, store.dictionary? value with
  | .object members, some _ => some members
  | _, _ => none

mutual

/-- A new value with the contents of a JSON value. -/
def ofJson (json : Json) : StoreM Value :=
  match json with
  | .null => pure .void
  | .bool value => newScalar (.boolean value)
  | .integer value =>
      match signedOfInt? value with
      | some value => newScalar (.integer value)
      | none => newScalar (.real (Float.ofInt value))
  | .real value => newScalar (.real value)
  | .string value => newScalar (.string value)
  | .array items => do
      let values ← ofJsonItems items
      newArray values
  | .object members => do
      let entries ← ofJsonMembers members
      newDictionary .dictionary (.ofList entries)
termination_by structural json

def ofJsonItems (items : List Json) : StoreM (List Value) :=
  match items with
  | [] => pure []
  | item :: rest => do
      let value ← ofJson item
      let values ← ofJsonItems rest
      pure (value :: values)
termination_by structural items

def ofJsonMembers (members : List (String × Json)) : StoreM (List (String × Value)) :=
  match members with
  | [] => pure []
  | (key, json) :: rest => do
      let value ← ofJson json
      let entries ← ofJsonMembers rest
      pure ((key, value) :: entries)
termination_by structural members

end

def ofJsonObject (members : JsonObject) : StoreM (Dictionary Value) := do
  let entries ← ofJsonMembers members
  pure (.ofList entries)

end FlowScript.Value
