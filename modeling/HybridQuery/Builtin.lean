import HybridQuery.Mode
import HybridQuery.Types.SequenceType

/-!
# Built-in functions

The table of built-in functions: names, accepted numbers of arguments, and the mode of a call.

* `Builtin.find?`: the function of a name and a number of arguments.
* `Builtin.mode`: sources are distributed, everything else is evaluated on the host.
-/

namespace HybridQuery

/-- A built-in function. -/
inductive Builtin where
  | jsonFile
  | textFile
  | structuredJsonFile
  | parallelize
  | count
  | empty
  | nonEmpty
  | sum
  | keys
  | size
  | head
  | intersect
  | date
  | dateTime
  | time
  | duration
  | base64Binary
  | yearFromDateTime
  | timezoneFromTime
  deriving Repr, DecidableEq, Inhabited

namespace Builtin

/-- Every built-in function. -/
def all : List Builtin :=
  [jsonFile, textFile, structuredJsonFile, parallelize, count, empty, nonEmpty, sum, keys, size,
   head, intersect, date, dateTime, time, duration, base64Binary, yearFromDateTime,
   timezoneFromTime]

/-- The name a function is called by. -/
def name : Builtin → String
  | jsonFile => "json-file"
  | textFile => "text-file"
  | structuredJsonFile => "structured-json-file"
  | parallelize => "parallelize"
  | count => "count"
  | empty => "empty"
  | nonEmpty => "exists"
  | sum => "sum"
  | keys => "keys"
  | size => "size"
  | head => "head"
  | intersect => "intersect"
  | date => "date"
  | dateTime => "dateTime"
  | time => "time"
  | duration => "duration"
  | base64Binary => "base64Binary"
  | yearFromDateTime => "year-from-dateTime"
  | timezoneFromTime => "timezone-from-time"

/-- The type that a constructor casts a string to. -/
def constructs? : Builtin → Option ItemType
  | date => some .date
  | dateTime => some .dateTime
  | time => some .time
  | duration => some .duration
  | base64Binary => some .base64Binary
  | _ => none

/-- Whether a number of arguments is accepted; the second argument of a source is its number of
partitions. -/
def accepts : Builtin → Nat → Bool
  | jsonFile, n | textFile, n | parallelize, n => n == 1 || n == 2
  | _, n => n == 1

/-- The built-in function of a name that accepts a number of arguments. -/
def find? (name : String) (arity : Nat) : Option Builtin :=
  all.find? fun b => b.name == name && b.accepts arity

/-- The mode of a call with all arguments. -/
def mode : Builtin → Mode
  | jsonFile | textFile | parallelize => .rows
  | structuredJsonFile => .columns
  | _ => .host

end Builtin
end HybridQuery
