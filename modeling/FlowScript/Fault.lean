import FlowScript.Ast.Operator
import FlowScript.Source.Span
import FlowScript.Value.Kind

/-!
# Faults

What makes a running script fail. A cause says what went wrong; a fault is a
cause and, once it is known, the place in the source where it shows. Operations
on values give bare causes, and what evaluates the script adds the place. Errors
that a script raises itself are values and not faults.
-/

set_option autoImplicit false

namespace FlowScript

inductive FaultClass where
  | undeclaredIdentifier
  | alreadyDeclared
  | unknownType
  | propertyNotFound
  | notCallable
  | notAwaitable
  | arityMismatch
  | typeMismatch
  | noMatchingOperator
  | invalidAssignment
  | notConstructible
  | notConvertible
  | invalidArgument
  | missingReturnValue
  | invalidReturnType
  | missingDelegate
  | panic
  deriving DecidableEq, Repr

inductive Cause where
  | undeclared (name : String)
  | alreadyDeclared (name : String)
  | unknownType (name : String)
  /-- The right side of a type test names no type. -/
  | notAType (name : String)
  | propertyNotFound (name : String)
  | notCallable (path : String)
  | notAwaitable (kind : Kind)
  /-- A call leaves out an argument that it needs. -/
  | missingArgument (name : String)
  | argumentCount (expected : Nat)
  | unknownArgument (name : String)
  | argumentMismatch (name : String) (expected actual : Kind)
  | durationExpected (actual : Kind)
  | raisedKind
  | noUnaryOperator (op : UnaryOperator) (operand : Kind)
  | noBinaryOperator (op : BinaryOperator) (left right : Kind)
  | assignmentMismatch (target source : Kind)
  | notConstructible (kind : Kind)
  | constructionMismatch (target argument : Kind)
  | notConvertible (source target : Kind)
  | divisionByZero
  | integerOverflow
  | negativeDuration
  | durationOverflow
  | timePointOutOfRange
  | invalidTimePoint (text : String)
  | dictionaryKey
  | pushReceiver
  | insertReceiver
  | formatExpected
  | formatArguments
  /-- A hole of a format names no argument. -/
  | formatKey (key : String)
  | missingReturnValue
  | returnMismatch (expected actual : Kind)
  | missingDelegate (request : HostKind)
  | panic (message : String)
  deriving DecidableEq, Repr

namespace Cause

def faultClass : Cause → FaultClass
  | .undeclared _ => .undeclaredIdentifier
  | .alreadyDeclared _ => .alreadyDeclared
  | .unknownType _ | .notAType _ => .unknownType
  | .propertyNotFound _ => .propertyNotFound
  | .notCallable _ => .notCallable
  | .notAwaitable _ => .notAwaitable
  | .missingArgument _ | .argumentCount _ => .arityMismatch
  | .argumentMismatch _ _ _ | .durationExpected _ | .raisedKind => .typeMismatch
  | .noUnaryOperator _ _ | .noBinaryOperator _ _ _ => .noMatchingOperator
  | .assignmentMismatch _ _ => .invalidAssignment
  | .notConstructible _ | .constructionMismatch _ _ => .notConstructible
  | .notConvertible _ _ => .notConvertible
  | .unknownArgument _ | .divisionByZero | .integerOverflow | .negativeDuration
  | .durationOverflow | .timePointOutOfRange | .invalidTimePoint _ | .dictionaryKey
  | .pushReceiver | .insertReceiver | .formatExpected | .formatArguments
  | .formatKey _ => .invalidArgument
  | .missingReturnValue => .missingReturnValue
  | .returnMismatch _ _ => .invalidReturnType
  | .missingDelegate _ => .missingDelegate
  | .panic _ => .panic

def message : Cause → String
  | .undeclared name => "Use of undeclared identifier '" ++ name ++ "'"
  | .alreadyDeclared name => "'" ++ name ++ "' already declared in the current scope"
  | .unknownType name => "Unknown type '" ++ name ++ "'"
  | .notAType name => "'" ++ name ++ "' is not a type"
  | .propertyNotFound name => "Property '" ++ name ++ "' not found"
  | .notCallable path => "'" ++ path ++ "' is not a callable"
  | .notAwaitable kind => "Expression of type '" ++ kind.name ++ "' is not an awaitable"
  | .missingArgument name => "Missing argument '" ++ name ++ "'"
  | .argumentCount expected =>
      "Invalid argument count: expected " ++ toString expected ++ " arguments"
  | .unknownArgument name => "Unknown argument '" ++ name ++ "'"
  | .argumentMismatch name expected actual =>
      "Type mismatch for argument '" ++ name ++ "': expected a '" ++ expected.name
        ++ "' while got a '" ++ actual.name ++ "'"
  | .durationExpected actual => "Expected a 'duration' got a '" ++ actual.name ++ "'"
  | .raisedKind => "Expecting a string or error expression"
  | .noUnaryOperator op operand =>
      "No matching operator '" ++ op.symbol ++ "' for type '" ++ operand.name ++ "'"
  | .noBinaryOperator op left right =>
      "No matching operator '" ++ op.symbol ++ "' for types '" ++ left.name ++ "' and '"
        ++ right.name ++ "'"
  | .assignmentMismatch target source =>
      "Invalid assignment. Expected '" ++ target.name ++ "' while provided a '" ++ source.name
        ++ "'"
  | .notConstructible kind => "Type '" ++ kind.name ++ "' is not constructible"
  | .constructionMismatch target argument =>
      "Cannot construct a '" ++ target.name ++ "' from a '" ++ argument.name ++ "'"
  | .notConvertible source target =>
      "Type '" ++ source.name ++ "' not convertible to '" ++ target.name ++ "'"
  | .divisionByZero => "Division by zero"
  | .integerOverflow => "Integer overflow"
  | .negativeDuration => "Negative duration"
  | .durationOverflow => "Duration overflow"
  | .timePointOutOfRange => "Time point out of range"
  | .invalidTimePoint text => "Invalid time point '" ++ text ++ "'"
  | .dictionaryKey => "Dictionary keys must be strings"
  | .pushReceiver => "push expects an array"
  | .insertReceiver => "insert expects a dictionary"
  | .formatExpected => "str_format expects a format string"
  | .formatArguments => "Not enough arguments for str_format"
  | .formatKey key => "Missing argument '" ++ key ++ "'"
  | .missingReturnValue => "Workflow did not return any value"
  | .returnMismatch expected actual =>
      "Invalid return type: expected a " ++ expected.name ++ ", got a " ++ actual.name
  | .missingDelegate request => "No delegate registered for '" ++ request.name ++ "'"
  | .panic message => message

end Cause

/-- A cause and the place in the source where it shows, if that is known. -/
structure Fault where
  cause : Cause
  place : Option Span
  deriving DecidableEq, Repr

namespace Fault

def message (fault : Fault) : String := fault.cause.message

/-- A fault that shows nowhere yet. -/
def unplaced (cause : Cause) : Fault := ⟨cause, none⟩

/-- Adds the place of a fault, unless it already has one. -/
def placedAt (fault : Fault) (span : Span) : Fault :=
  { fault with place := fault.place.or (some span) }

/-- The span to point at. -/
def location (fault : Fault) : Span := fault.place.getD .origin

end Fault

end FlowScript
