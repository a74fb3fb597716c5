import FlowScript.Value.Basic

/-!
# Scopes

Every block runs in a scope of its own. A function scope has a fresh slot for the
function's result; a local or loop scope uses the slot of the scope around it.
A scope that is left hands its flow signal outwards: a return as far as the
nearest function, a break as far as the nearest loop or function.
-/

set_option autoImplicit false

namespace FlowScript

inductive ScopeKind where
  | function
  | loop
  | block
  deriving DecidableEq, Repr

/-- What the statements of a scope have asked for. -/
inductive FlowSignal where
  | proceed
  | returning
  | breaking
  deriving DecidableEq, Repr

/-- The variables of a block and the state of its control flow. -/
structure Scope where
  kind : ScopeKind
  bindings : Dictionary Value
  /-- Which result slot a return in this scope writes to. -/
  slot : Nat
  flow : FlowSignal

namespace Scope

def fresh (kind : ScopeKind) (slot : Nat) : Scope := ⟨kind, .empty, slot, .proceed⟩

/-- Holds when the scope keeps its signal to itself. -/
def stopsSignal (scope : Scope) : Bool :=
  match scope.flow with
  | .proceed => true
  | .returning => scope.kind == .function
  | .breaking => scope.kind != .block

end Scope

/-- Nested scopes, the innermost one apart, so that there is always one. The
table of result slots only grows, which gives every function a slot of its own. -/
structure ScopeStack where
  current : Scope
  outer : List Scope
  slots : Array (Option Value)

namespace ScopeStack

def initial : ScopeStack := ⟨.fresh .function 0, [], #[none]⟩

/-- All scopes from the innermost outwards. -/
def scopes (stack : ScopeStack) : List Scope := stack.current :: stack.outer

def depth (stack : ScopeStack) : Nat := stack.outer.length + 1

def push (stack : ScopeStack) (kind : ScopeKind) : ScopeStack :=
  match kind with
  | .function =>
      { current := .fresh kind stack.slots.size
        outer := stack.scopes
        slots := stack.slots.push none }
  | .loop | .block =>
      { stack with current := .fresh kind stack.current.slot, outer := stack.scopes }

/-- Leaves the innermost scope, unless it is the only one, and answers with the
signal it ended with. -/
def pop (stack : ScopeStack) : FlowSignal × ScopeStack :=
  match stack.outer with
  | [] => (stack.current.flow, stack)
  | parent :: rest =>
      let parent :=
        if stack.current.stopsSignal then parent else { parent with flow := stack.current.flow }
      (stack.current.flow, { stack with current := parent, outer := rest })

/-- Leaves the innermost scopes without passing their signals on. -/
def dropScopes : Nat → ScopeStack → ScopeStack
  | 0, stack => stack
  | count + 1, stack =>
      match stack.outer with
      | [] => stack
      | parent :: rest => dropScopes count { stack with current := parent, outer := rest }

/-- Leaves all scopes above a depth; the outermost one always stays. -/
def truncate (stack : ScopeStack) (depth : Nat) : ScopeStack :=
  dropScopes (stack.depth - max depth 1) stack

def flow (stack : ScopeStack) : FlowSignal := stack.current.flow

def setFlow (stack : ScopeStack) (flow : FlowSignal) : ScopeStack :=
  { stack with current := { stack.current with flow } }

/-- Stores the result of the enclosing function and starts to leave it. -/
def setReturn (stack : ScopeStack) (value : Value) : ScopeStack :=
  { stack with
    current := { stack.current with flow := .returning }
    slots := stack.slots.setIfInBounds stack.current.slot (some value) }

/-- The result that the enclosing function has stored. -/
def returnValue? (stack : ScopeStack) : Option Value :=
  (stack.slots[stack.current.slot]?).join

def declare (stack : ScopeStack) (name : String) (value : Value) : Except Cause ScopeStack :=
  if stack.current.bindings.contains name then .error (.alreadyDeclared name)
  else
    let bindings := stack.current.bindings.insert name value
    .ok { stack with current := { stack.current with bindings } }

/-- The value of the innermost variable of that name among some scopes. -/
def lookupIn? (name : String) : List Scope → Option Value
  | [] => none
  | scope :: rest =>
      match scope.bindings.get? name with
      | some value => some value
      | none => lookupIn? name rest

def lookup? (stack : ScopeStack) (name : String) : Option Value :=
  lookupIn? name stack.scopes

/-- Gives the innermost variable of that name among some scopes another value. -/
def rebindIn? (name : String) (value : Value) : List Scope → Option (List Scope)
  | [] => none
  | scope :: rest =>
      if scope.bindings.contains name then
        some ({ scope with bindings := scope.bindings.insert name value } :: rest)
      else (rebindIn? name value rest).map (scope :: ·)

def rebind (stack : ScopeStack) (name : String) (value : Value) : Except Cause ScopeStack :=
  match rebindIn? name value stack.scopes with
  | some (current :: outer) => .ok { stack with current, outer }
  | _ => .error (.undeclared name)

end ScopeStack

end FlowScript
