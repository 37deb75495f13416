import HybridQuery.Cluster.Collection
import HybridQuery.Plan.Tree
import HybridQuery.Temporal.Clock

/-!
# Items and bound values

An item is a single immutable value: null, a truth value, a number, a string, a point or length of
time, bytes, an object, an array or a function. A variable is bound to items in one of three
representations: a list on the host, a distributed collection, or a frame of columns.

* `Item`: the values. Objects keep the order of their pairs; of pairs with one key the first counts.
* `Value`, `Frame`: representations of sequences.
* `Item.member?`, `Item.keys`, `Item.members`: the parts of an item.
* `Sequence.allKeys`: the keys of all objects, each once.
* `Sequence.intersection`: the keys that all objects have, with their values.
-/

namespace HybridQuery

/-! ## Representations -/

/-- How the rows of a frame read back. -/
inductive RowKind where
  /-- One object per row, absent cells left out. -/
  | objects
  /-- The values of the single column, absent ones left out. -/
  | values
  deriving Repr, DecidableEq, Inhabited

/-- The cells of one partition of a frame, column by column. -/
structure Chunk (α : Type) where
  columns : List (List (Option α))
  rows : Nat
  deriving Inhabited

/-- Distributed columns. -/
structure Frame (α : Type) where
  columns : List String
  chunks : List (Chunk α)
  kind : RowKind
  deriving Inhabited

/-- A sequence of items in one of its representations. -/
inductive Value (α : Type) where
  | items (items : List α)
  | rows (rows : Collection α)
  | columns (frame : Frame α)
  deriving Inhabited

/-- Names and what they are bound to. -/
structure BindingsOf (α : Type) where
  pairs : List (String × Value α)
  deriving Inhabited

/-- A function together with the bindings it closed over. -/
structure FunctionOf (α : Type) where
  /-- By this functions are told apart. A function that a query makes has none: queries cannot compare
  functions. -/
  handle : Option Nat
  name : Option String
  parameters : List String
  signature : Signature
  body : Plan
  closure : BindingsOf α

/-! ## Items -/

/-- A single value. -/
inductive Item where
  | null
  | boolean (b : Bool)
  | integer (n : Int64)
  | decimal (d : Decimal)
  | double (d : Float)
  | string (s : String)
  | date (d : Date)
  | dateTime (t : DateTime)
  | time (t : ZonedTime)
  | duration (d : Duration)
  | binary (bytes : List UInt8)
  | object (pairs : List (String × Item))
  | array (members : List Item)
  | function (f : FunctionOf Item)
  deriving Inhabited

/-- A function over items. -/
abbrev FunctionItem := FunctionOf Item

/-- Names and what they are bound to. -/
abbrev Bindings := BindingsOf Item

/-- A sequence of items. -/
abbrev Sequence := List Item

namespace FunctionOf

/-- Number of parameters. -/
def arity {α : Type} (f : FunctionOf α) : Nat := f.parameters.length

/-- Name and arity of a function. -/
def identifier {α : Type} (f : FunctionOf α) : String :=
  f.name.getD "inline-function" ++ s!"#{f.arity}"

/-- Whether two functions are the same one, by their handles. -/
def isSame {α : Type} (f g : FunctionOf α) : Bool := f.handle == g.handle

end FunctionOf

namespace Item

/-! ## Kinds -/

/-- The name of the most specific built-in type of an item. -/
def typeName : Item → String
  | null => "null"
  | boolean _ => "boolean"
  | integer _ => "integer"
  | decimal _ => "decimal"
  | double _ => "double"
  | string _ => "string"
  | date _ => "date"
  | dateTime _ => "dateTime"
  | time _ => "time"
  | duration _ => "duration"
  | binary _ => "base64Binary"
  | object _ => "object"
  | array _ => "array"
  | function _ => "function"

/-- Whether the item is null. -/
def isNull : Item → Bool
  | null => true
  | _ => false

/-- Whether the item is a truth value. -/
def isBoolean : Item → Bool
  | boolean _ => true
  | _ => false

/-- Whether the item is a string. -/
def isString : Item → Bool
  | string _ => true
  | _ => false

/-- Whether the item is an integer. -/
def isInteger : Item → Bool
  | integer _ => true
  | _ => false

/-- Whether the item is a double. -/
def isDouble : Item → Bool
  | double _ => true
  | _ => false

/-- Whether the item is a number. -/
def isNumeric : Item → Bool
  | integer _ | decimal _ | double _ => true
  | _ => false

/-- Whether the item is an object. -/
def isObject : Item → Bool
  | object _ => true
  | _ => false

/-- Whether the item is an array. -/
def isArray : Item → Bool
  | array _ => true
  | _ => false

/-- Whether the item is a function. -/
def isFunction : Item → Bool
  | function _ => true
  | _ => false

/-- Whether the item is neither an object nor an array nor a function. -/
def isAtomic : Item → Bool
  | object _ | array _ | function _ => false
  | _ => true

/-! ## Parts -/

/-- The keys of an object in order; none for anything else. -/
def keys : Item → List String
  | object pairs => pairs.map (·.1)
  | _ => []

/-- The value of the first pair with a key. -/
def member? (item : Item) (key : String) : Option Item :=
  match item with
  | object pairs => pairs.lookup key
  | _ => none

/-- The members of an array; none for anything else. -/
def members : Item → List Item
  | array members => members
  | _ => []

/-- The text of a string. -/
def string? : Item → Option String
  | string s => some s
  | _ => none

/-- The value of an integer. -/
def integer? : Item → Option Int64
  | integer n => some n
  | _ => none

/-- The value of a truth value. -/
def boolean? : Item → Option Bool
  | boolean b => some b
  | _ => none

/-- An integer or decimal as a decimal. -/
def decimal? : Item → Option Decimal
  | integer n => some (.ofInt n.toInt)
  | decimal d => some d
  | _ => none

/-- A number as the nearest double. -/
def double? : Item → Option Float
  | integer n => some (Double.ofInt64 n)
  | decimal d => some (Double.ofDecimal d)
  | double d => some d
  | _ => none

end Item

/-! ## Objects in bulk -/

namespace Sequence

/-- The keys of all objects, each at its first occurrence. -/
def allKeys (items : Sequence) : List String := (items.flatMap Item.keys).eraseDups

/-- Keys, each once, with the values collected under them. -/
abbrev Collected := List (String × List Item)

/-- Adds a key with its value in an object, unless it was added before. -/
def addKey (object : Item) (collected : Collected) (key : String) : Collected :=
  match object.member? key with
  | some value =>
    if collected.any (·.1 == key) then collected else collected ++ [(key, [value])]
  | none => collected

/-- The keys of an object, each at its first occurrence and with its value. -/
def collect (object : Item) : Collected := object.keys.foldl (addKey object) []

/-- Drops the keys that another object does not have, and adds its value to those of each other key. -/
def narrow (collected : Collected) (object : Item) : Collected :=
  collected.filterMap fun (key, values) =>
    (object.member? key).map fun value => (key, values ++ [value])

/-- The values of a common key: that of a single object, or an array of those of several. -/
def commonValue : List Item → Item
  | [value] => value
  | values => .array values

/-- The object of the keys that every object has, in the order of the first object. -/
def intersection (items : Sequence) : Item :=
  match items.filter Item.isObject with
  | [] => .object []
  | first :: rest =>
    .object ((rest.foldl narrow (collect first)).map fun (key, values) => (key, commonValue values))

end Sequence
end HybridQuery
