import FlowScript.Value.Basic

/-!
# Equality and binary operators

Equality compares contents, not storage. It is decided by the kind of the left
operand; pairs of kinds for which it is not defined count as unequal inside
containers, and have no `==` at the top.
-/

set_option autoImplicit false

namespace FlowScript.Value

/-- Pairs up two lists of the same length and asks for all pairs. -/
def allPairs {α : Type} (test : α → α → Bool) : List α → List α → Bool
  | [], [] => true
  | left :: lefts, right :: rights => test left right && allPairs test lefts rights
  | _, _ => false

/-- Whether two values are equal, where that is defined, down to a depth. -/
def equalTo? : Nat → Store → Value → Value → Option Bool
  | 0, _, _, _ => none
  | depth + 1, store, left, right =>
      let equal := fun left right => (equalTo? depth store left right).getD false
      match left, right with
      | .void, right => some right.isVoid
      | .error _ left _, .error _ right _ => some (left == right)
      | .stored _ left, .stored _ right =>
          match store.cell? left, store.cell? right with
          | some (.scalar left), some (.scalar right) =>
              match Scalar.binary .equal left right with
              | some (.ok (.boolean answer)) => some answer
              | _ => none
          | some (.array left), some (.array right) => some (allPairs equal left right)
          | some (.dictionary left), some (.dictionary right) =>
              some (left.size == right.size && left.entries.all fun (key, value) =>
                match right.get? key with
                | some other => equal value other
                | none => false)
          | _, _ => none
      | _, _ => none

def equal? (store : Store) (left right : Value) : Option Bool :=
  equalTo? store.walkDepth store left right

def equals (store : Store) (left right : Value) : Bool :=
  (equal? store left right).getD false

/-- Whether a container has an element: a dictionary its keys, an array its
items, a string its parts. -/
def contains? (store : Store) (container element : Value) : Option Bool :=
  match store.array? container, store.dictionary? container with
  | some items, _ => some (items.any fun item => equals store item element)
  | none, some entries => (store.string? element).map entries.contains
  | none, none => none

/-- The result of a binary operator, where the operator is defined. For `in` the
left operand is the container. -/
def binaryResult? (store : Store) (op : BinaryOperator) (left right : Value) :
    Option (Except Cause Scalar) :=
  match store.scalar? left, store.scalar? right with
  | some left, some right => Scalar.binary op left right
  | some _, none => none
  | none, _ =>
      match op with
      | .equal => Scalar.truth (equal? store left right)
      | .notEqual => Scalar.truth ((equal? store left right).map not)
      | .isIn => Scalar.truth (contains? store left right)
      | _ => none

def binary (op : BinaryOperator) (left right : Value) : StoreExceptM Value := do
  let store ← get
  match binaryResult? store op left right with
  | some (.ok result) => newScalar result
  | some (.error cause) => throw cause
  | none => throw (.noBinaryOperator op left.kind right.kind)

def unary (op : UnaryOperator) (operand : Value) : StoreExceptM Value := do
  let store ← get
  match (store.scalar? operand).bind (Scalar.unary op) with
  | some (.ok result) => newScalar result
  | some (.error cause) => throw cause
  | none => throw (.noUnaryOperator op operand.kind)

end FlowScript.Value
