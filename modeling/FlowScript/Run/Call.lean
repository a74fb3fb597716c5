import FlowScript.Run.Format
import FlowScript.Run.Machine

/-!
# Names, calls and parameters

The parts of evaluation that do not evaluate anything further: looking paths up,
calling functions, matching the arguments of a workflow with its parameters and
its result with its declared type.
-/

set_option autoImplicit false

namespace FlowScript

open RunM

/-! ## Paths -/

def followPath (value : Value) : List Identifier → RunM Value
  | [] => pure value
  | segment :: rest => do
      let next ← onStoreAt segment.span (value.property segment.name)
      followPath next rest

/-- The value of a path: a variable and what its segments lead to. -/
def resolve (head : Identifier) (tail : List Identifier) : RunM Value := do
  let scopes ← getScopes
  match scopes.lookup? head.name with
  | some value => followPath value tail
  | none => fail (.undeclared head.name) head.span

def resolveKind (name : Identifier) : RunM Kind :=
  match Kind.ofName? name.name with
  | some kind => pure kind
  | none => fail (.unknownType name.name) name.span

/-! ## Functions -/

/-- The texts of all arguments with blanks between them. -/
def joinedText (store : Store) (arguments : CallArguments) : String :=
  " ".intercalate (arguments.items.map fun argument => argument.value.render store)

def callBuiltin (function : Builtin) (arguments : CallArguments) (span : Span) :
    RunM Value := do
  let store ← getStore
  match function with
  | .print | .println => do
      report .info ("[FLOW] " ++ joinedText store arguments) []
      pure .void
  | .panic => fail (.panic (joinedText store arguments)) span
  | .strFormat => do
      let text ← ofExcept (Format.apply store arguments) span
      onStore (newScalar (.string text))

/-- Calls a value. A workflow does not run yet: the result is a pending call. -/
def callValue (callee : Value) (path : Path) (arguments : CallArguments) (span : Span) :
    RunM Value :=
  match callee with
  | .builtin function => do
      report .trace "call" [("function", .text function.name)]
      callBuiltin function arguments span
  | .member function receiver => do
      report .trace "call member" [("function", .text function.name)]
      onStoreAt span (receiver.callMember function arguments)
  | .workflow definition => onStore (newInvocation definition arguments span)
  | _ => fail (.notCallable path.render) path.span

/-! ## Parameters and results of workflows -/

/-- The first argument with a name that no parameter has. -/
def unknownArgument? (parameters : List Parameter) (arguments : CallArguments) :
    Option CallArgument :=
  arguments.items.find? fun argument =>
    match argument.name with
    | some name => !parameters.any fun parameter => parameter.name.name == name
    | none => false

/-- Binds parameters in order: each to the argument of its name, or else to the
first unnamed argument that is left. Values are copied. -/
def bindEach (arguments : CallArguments) (location : Span) :
    List Parameter → List CallArgument → RunM Unit
  | [], _ => pure ()
  | parameter :: rest, unnamed => do
      let expected ← resolveKind parameter.typeName
      let (argument, unnamed) ←
        match arguments.named? parameter.name.name, unnamed with
        | some argument, unnamed => pure (argument, unnamed)
        | none, argument :: unnamed => pure (argument, unnamed)
        | none, [] => fail (.missingArgument parameter.name.name) location
      if argument.value.kind = expected then do
        let copy ← onStore argument.value.detach
        onScopesAt parameter.span (·.declare parameter.name.name copy)
        bindEach arguments location rest unnamed
      else
        fail (.argumentMismatch parameter.name.name expected argument.value.kind)
          argument.location

/-- Binds the parameters of a workflow in the innermost scope. -/
def bindParameters (definition : Workflow) (arguments : CallArguments) (location : Span) :
    RunM Unit := do
  let parameters := definition.parameters
  if arguments.items.length = parameters.length then
    match unknownArgument? parameters arguments with
    | some argument => fail (.unknownArgument (argument.name.getD "")) argument.location
    | none => bindEach arguments location parameters arguments.unnamed
  else fail (.argumentCount parameters.length) location

/-- Checks the result of a workflow against its declared type. A workflow without
one has no result, and an error may take the place of any result. -/
def checkResult (definition : Workflow) (result : Option Value) (location : Span) :
    RunM Value := do
  let declared ← match definition.returnType with
    | some name => resolveKind name
    | none => pure .void
  match result with
  | none => if declared = .void then pure .void else fail .missingReturnValue location
  | some value =>
      if value.isError ∨ value.kind = declared then pure value
      else fail (.returnMismatch declared value.kind) location

end FlowScript
