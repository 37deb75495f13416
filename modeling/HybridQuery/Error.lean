/-!
# Engine errors

Every failure of analysis or evaluation is a fault together with the position of the node it is
blamed on, once one is known.

* `Fault`: the causes. `Fault.code` and `Fault.message` give the code and the wording.
* `EngineError.locate`: blames a position; the first one stays.
-/

namespace HybridQuery

/-! ## Positions -/

/-- Where a node stands in the text of a query. -/
structure SourcePosition where
  line : Nat
  column : Nat
  /-- Name of the document, if there are several. -/
  location : Option String
  deriving Repr, DecidableEq, Inhabited

namespace SourcePosition

/-- A position in an unnamed document. -/
def make (line column : Nat) : SourcePosition := ⟨line, column, none⟩

/-- The position of a node that carries none. -/
def unknown : SourcePosition := make 0 0

/-- Whether nothing is known of the position. -/
def isUnknown (p : SourcePosition) : Bool := p == unknown

/-- The text `line L:C`, after the name of the document and a colon if there is one. -/
def text (p : SourcePosition) : String :=
  (match p.location with
    | some location => location ++ ":"
    | none => "") ++ s!"line {p.line}:{p.column}"

end SourcePosition

/-! ## Codes -/

/-- Kinds of failure, as they are reported. -/
inductive ErrorCode where
  | arityMismatch
  | typeMismatch
  | iteratorFlow
  | invalidSchema
  | nonGroupableType
  | unsupportedFeature
  | resourceUnavailable
  | undefinedFunction
  | undefinedVariable
  | invalidArgument
  | materializationLimit
  deriving Repr, DecidableEq, Inhabited

/-- How bad a failure is: fatal ones are faults of the engine itself. -/
inductive ErrorSeverity where
  | error
  | fatal
  deriving Repr, DecidableEq

namespace ErrorCode

/-- The reported name of a code. -/
def text : ErrorCode → String
  | arityMismatch => "TQ_ARITY_MISMATCH"
  | typeMismatch => "TQ_TYPE_MISMATCH"
  | iteratorFlow => "TQ_ITERATOR_FLOW"
  | invalidSchema => "TQ_INVALID_SCHEMA"
  | nonGroupableType => "TQ_NON_GROUPABLE_TYPE"
  | unsupportedFeature => "TQ_UNSUPPORTED_FEATURE"
  | resourceUnavailable => "TQ_RESOURCE_UNAVAILABLE"
  | undefinedFunction => "TQ_UNDEFINED_FUNCTION"
  | undefinedVariable => "TQ_UNDEFINED_VARIABLE"
  | invalidArgument => "TQ_INVALID_ARGUMENT"
  | materializationLimit => "TQ_MATERIALIZATION_LIMIT"

/-- Only a broken iterator protocol is fatal. -/
def severity : ErrorCode → ErrorSeverity
  | iteratorFlow => .fatal
  | _ => .error

end ErrorCode

/-- The reported name of a severity. -/
def ErrorSeverity.text : ErrorSeverity → String
  | error => "ERROR"
  | fatal => "FATAL"

/-! ## Faults -/

/-- What went wrong. -/
inductive Fault where
  /-- A function was called with a wrong number of arguments; its name is empty if it has none. -/
  | arity (function : String) (expected found : Nat)
  | typeMismatch (reason : String)
  /-- The iterator protocol was broken. -/
  | flow (reason : String)
  /-- Nothing was pending in an iterator that was asked for its next result. -/
  | exhausted (iterator : String)
  | invalidSchema (reason : String)
  /-- A grouping key is neither empty nor a single atomic. -/
  | nonGroupable (variableName found : String)
  | unsupported (feature : String)
  | resource (reason : String)
  | undefinedFunction (name : String) (arity : Nat)
  | undefinedVariable (name : String)
  | invalidArgument (reason : String)
  /-- A distributed collection holds more items than may be pulled to the host. -/
  | materializationLimit (cap : Nat)
  deriving Repr, DecidableEq, Inhabited

namespace Fault

/-- The code a fault is reported under. -/
def code : Fault → ErrorCode
  | arity .. => .arityMismatch
  | typeMismatch _ => .typeMismatch
  | flow _ => .iteratorFlow
  | exhausted _ => .iteratorFlow
  | invalidSchema _ => .invalidSchema
  | nonGroupable .. => .nonGroupableType
  | unsupported _ => .unsupportedFeature
  | resource _ => .resourceUnavailable
  | undefinedFunction .. => .undefinedFunction
  | undefinedVariable _ => .undefinedVariable
  | invalidArgument _ => .invalidArgument
  | materializationLimit _ => .materializationLimit

/-- The wording of a fault. -/
def message : Fault → String
  | arity function expected found =>
    let name := if function.isEmpty then "" else function ++ " "
    s!"Dynamic function {name}invoked with incorrect number of arguments. "
      ++ s!"Expected: {expected}, Found: {found}"
  | typeMismatch reason => reason
  | flow reason => reason
  | exhausted iterator => s!"Invalid next() call; no more items in {iterator}"
  | invalidSchema reason => reason
  | nonGroupable variableName found =>
    s!"Group by variable ${variableName} must evaluate to a single atomic or an empty sequence, "
      ++ s!"found {found}"
  | unsupported feature => s!"Unsupported feature: {feature}"
  | resource reason => reason
  | undefinedFunction name count => s!"Undefined function {name}#{count}"
  | undefinedVariable name => s!"Variable ${name} is not in scope"
  | invalidArgument reason => reason
  | materializationLimit cap =>
    s!"More than {cap} items would be materialized from a distributed collection"

end Fault

/-! ## Errors -/

/-- A fault and the position it is blamed on. -/
structure EngineError where
  fault : Fault
  position : Option SourcePosition
  deriving Repr, DecidableEq, Inhabited

namespace EngineError

/-- An error without a position. -/
def of (fault : Fault) : EngineError := ⟨fault, none⟩

/-- Blames a position, unless one is blamed already. -/
def locate (e : EngineError) (position : SourcePosition) : EngineError :=
  match e.position with
  | some _ => e
  | none => { e with position := some position }

/-- The code of an error. -/
def code (e : EngineError) : ErrorCode := e.fault.code

/-- The wording of an error, without its position. -/
def message (e : EngineError) : String := e.fault.message

/-- Whether the error is a fault of the engine itself. -/
def isFatal (e : EngineError) : Bool := e.code.severity == .fatal

/-- The full text of an error: severity, code, wording and position. -/
def text (e : EngineError) : String :=
  s!"[{e.code.severity.text}] {e.code.text}: {e.message}"
    ++ (match e.position with
      | some position => s!" (at {position.text})"
      | none => "")

end EngineError

/-! ## Results -/

/-- A result of the engine. -/
abbrev EngineResult (α : Type) := Except EngineError α

/-- Fails with a fault that has no position yet. -/
def EngineResult.fail {α : Type} (fault : Fault) : EngineResult α := .error (.of fault)

/-- Blames a position for the failure of a result. -/
def EngineResult.locate {α : Type} (r : EngineResult α) (position : SourcePosition) :
    EngineResult α :=
  r.mapError (·.locate position)

end HybridQuery
