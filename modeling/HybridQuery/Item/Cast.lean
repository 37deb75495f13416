import HybridQuery.Item.Basic
import HybridQuery.Temporal.Text
import HybridQuery.Text.Base64
import HybridQuery.Text.Blank
import HybridQuery.Types.SequenceType

/-!
# Casting text to atomics

Points in time, lengths of time and bytes have no JSON form, so that data carries them as text. A cast
reads the lexical form of an atomic type, without the blanks around it.

* `Item.ofText?`: the item of a type that a text stands for.
* `Item.cast`: the same, with the fault of a text that stands for none.
* `Item.castOverflows`: the texts of which there is more to say than that they stand for none.
-/

namespace HybridQuery
namespace Item

/-- Reads a double: `INF`, `-INF`, `NaN` or a literal of a finite number. -/
def doubleOfText? (text : String) : Option Float :=
  if text = "INF" then some (1.0 / 0.0)
  else if text = "-INF" then some (-1.0 / 0.0)
  else if text = "NaN" then some (0.0 / 0.0)
  else (Double.ofText? text).filter Double.isFinite

/-- Reads a truth value. -/
def booleanOfText? (text : String) : Option Bool :=
  if text = "true" ∨ text = "1" then some true
  else if text = "false" ∨ text = "0" then some false
  else none

/-- Reads an integer of 64 bits with an optional sign. -/
def integerOfText? (text : String) : Option Int64 := (int64? text.toList).map Int64.ofInt

/-- The item of a type that a text without blanks around it stands for. -/
def ofText? (type : ItemType) (text : String) : Option Item :=
  match type with
  | .string | .atomic | .item => some (.string text)
  | .integer => (integerOfText? text).map .integer
  | .decimal => (Decimal.ofText? text).map .decimal
  | .double => (doubleOfText? text).map .double
  | .boolean => (booleanOfText? text).map .boolean
  | .date => (Date.ofText? text).map .date
  | .dateTime => (DateTime.ofText? text).map .dateTime
  | .time => (ZonedTime.ofText? text).map .time
  | .duration => (Duration.ofText? text).map .duration
  | .base64Binary => (Base64.decode? text).map .binary
  | _ => none

/-- Casts a text to a type. -/
def cast (text : String) (type : ItemType) : TypeResult Item :=
  let text := Text.trim text
  match ofText? type text with
  | some item => .ok item
  | none => .error (.cast text type.name)

/-- Whether a cast runs over the range of durations: the text has the parts of a duration, but putting them
together leaves the range on the way. Nothing checks for this but `DurationParts.duration?`. -/
def castOverflows (text : String) (type : ItemType) : Bool :=
  match type with
  | .duration => (DurationParts.ofText? (Text.trim text)).any (·.duration?.isNone)
  | _ => false

end Item

/-- Whether JSON data carries the values of a type as text. -/
def ItemType.isLexical : ItemType → Bool
  | date | dateTime | time | duration | base64Binary => true
  | _ => false

end HybridQuery
