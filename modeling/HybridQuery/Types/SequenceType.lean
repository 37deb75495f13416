import HybridQuery.Error
import HybridQuery.Text.Blank
import HybridQuery.Text.Letters

/-!
# Sequence types

A sequence type is an item type and an occurrence: `integer` is exactly one item, `integer?` one at
most, `integer*` any number, `integer+` one at least. `()` is the empty sequence. A name that is not
built in stands for a declared type.

* `SequenceType.parse`, `SequenceType.text`: literals and back.
* `TypeFault`: what can go wrong with types, with its wording.
-/

namespace HybridQuery

/-! ## Faults -/

/-- What can go wrong when types are declared, named or applied. -/
inductive TypeFault where
  | unknownType (name : String)
  | builtinClash (name : String)
  | duplicateType (name : String)
  | unknownFieldType (typeName field fieldType : String)
  | invalidSequenceType (literal : String)
  | promotion (found target : String)
  | cardinality (expected : String) (found : Nat)
  | cast (value target : String)
  deriving Repr, DecidableEq, Inhabited

namespace TypeFault

/-- Whether the types themselves are wrong, rather than a value. -/
def isSchemaFault : TypeFault → Bool
  | promotion .. | cardinality .. | cast .. => false
  | _ => true

/-- The wording of a fault. -/
def message : TypeFault → String
  | unknownType name => s!"Unknown type: {name}"
  | builtinClash name => s!"Type {name} clashes with a built-in type"
  | duplicateType name => s!"Type {name} is already declared"
  | unknownFieldType typeName field fieldType =>
    s!"Field {field} of type {typeName} has unknown type {fieldType}"
  | invalidSequenceType literal => s!"Invalid sequence type: {literal}"
  | promotion found target => s!"Cannot promote {found} to {target}"
  | cardinality expected found => s!"Expected {expected}, found a sequence of {found} items"
  | cast value target => s!"Cannot cast '{value}' to {target}"

/-- The engine's fault for a fault of types. -/
def toFault (f : TypeFault) : Fault :=
  if f.isSchemaFault then .invalidSchema f.message else .typeMismatch f.message

end TypeFault

/-- A result of the type catalogue. -/
abbrev TypeResult (α : Type) := Except TypeFault α

/-- A type result as a result of the engine. -/
def TypeResult.toEngine {α : Type} (r : TypeResult α) : EngineResult α :=
  r.mapError fun f => .of f.toFault

/-! ## Item types -/

/-- The type of a single item. -/
inductive ItemType where
  | item
  | atomic
  | string
  | integer
  | decimal
  | double
  | numeric
  | boolean
  | null
  | date
  | dateTime
  | time
  | duration
  | base64Binary
  | object
  | array
  | function
  /-- A type declared in the catalogue. -/
  | declared (name : String)
  deriving Repr, DecidableEq, Inhabited

namespace ItemType

/-- The built-in types and their names. -/
def builtins : List (String × ItemType) :=
  [("item", item), ("atomic", atomic), ("string", string), ("integer", integer),
   ("decimal", decimal), ("double", double), ("numeric", numeric), ("boolean", boolean),
   ("null", null), ("date", date), ("dateTime", dateTime), ("time", time),
   ("duration", duration), ("base64Binary", base64Binary), ("object", object),
   ("array", array), ("function", function)]

/-- The built-in type of a name. -/
def builtin? (name : String) : Option ItemType := builtins.lookup name

/-- The type that a name stands for: a built-in one, or else a declared one. -/
def ofName (name : String) : ItemType := (builtin? name).getD (declared name)

/-- The name of a type. -/
def name : ItemType → String
  | item => "item"
  | atomic => "atomic"
  | string => "string"
  | integer => "integer"
  | decimal => "decimal"
  | double => "double"
  | numeric => "numeric"
  | boolean => "boolean"
  | null => "null"
  | date => "date"
  | dateTime => "dateTime"
  | time => "time"
  | duration => "duration"
  | base64Binary => "base64Binary"
  | object => "object"
  | array => "array"
  | function => "function"
  | declared name => name

end ItemType

/-! ## Occurrences -/

/-- How many items a sequence may hold. -/
inductive Occurrence where
  | one
  | zeroOrOne
  | zeroOrMore
  | oneOrMore
  deriving Repr, DecidableEq, Inhabited

namespace Occurrence

/-- Whether a number of items is admitted. -/
def admits : Occurrence → Nat → Bool
  | one, n => n == 1
  | zeroOrOne, n => n ≤ 1
  | zeroOrMore, _ => true
  | oneOrMore, n => n ≥ 1

/-- The greatest number of items, if there is one. -/
def max : Occurrence → Option Nat
  | one | zeroOrOne => some 1
  | zeroOrMore | oneOrMore => none

/-- The mark after the item type. -/
def mark : Occurrence → String
  | one => ""
  | zeroOrOne => "?"
  | zeroOrMore => "*"
  | oneOrMore => "+"

end Occurrence

/-! ## Sequence types -/

/-- The type of a sequence of items. -/
inductive SequenceType where
  /-- The empty sequence alone. -/
  | empty
  | of (itemType : ItemType) (occurrence : Occurrence)
  deriving Repr, DecidableEq, Inhabited

namespace SequenceType

/-- Any sequence of items. -/
def unconstrained : SequenceType := .of .item .zeroOrMore

/-- Whether the type admits every sequence. -/
def isUnconstrained (t : SequenceType) : Bool := t == unconstrained

/-- Whether the type is that of the empty sequence. -/
def isEmpty : SequenceType → Bool
  | empty => true
  | of .. => false

/-- The type of the items. The empty sequence is taken as a sequence of at most one item of any
kind. -/
def itemType : SequenceType → ItemType
  | empty => .item
  | of itemType _ => itemType

/-- The number of items; see `itemType` for the empty sequence. -/
def occurrence : SequenceType → Occurrence
  | empty => .zeroOrOne
  | of _ occurrence => occurrence

/-- Whether a number of items is admitted. -/
def admitsCount : SequenceType → Nat → Bool
  | empty, n => n == 0
  | of _ occurrence, n => occurrence.admits n

/-- The literal of a type. -/
def text : SequenceType → String
  | empty => "()"
  | of itemType occurrence => itemType.name ++ occurrence.mark

/-- Whether a character may occur in the name of a type. -/
def isNameChar (c : Char) : Bool :=
  Text.isLetterOrDigit c || c == '-' || c == '_' || c == ':'

/-- Splits the mark of the occurrence off a literal. -/
def splitMark (cs : List Char) : List Char × Occurrence :=
  match cs.getLast? with
  | some '?' => (cs.dropLast, .zeroOrOne)
  | some '*' => (cs.dropLast, .zeroOrMore)
  | some '+' => (cs.dropLast, .oneOrMore)
  | _ => (cs, .one)

/-- Reads a literal. -/
def parse (literal : String) : TypeResult SequenceType :=
  let literal := Text.trim literal
  if literal = "()" ∨ literal = "empty-sequence()" then .ok .empty
  else
    let (name, occurrence) := splitMark literal.toList
    if name.isEmpty || !name.all isNameChar then .error (.invalidSequenceType literal)
    else .ok (.of (ItemType.ofName (String.ofList name)) occurrence)

end SequenceType
end HybridQuery
