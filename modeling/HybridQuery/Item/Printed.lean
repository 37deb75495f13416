import HybridQuery.Item.Basic
import HybridQuery.Json.Reader
import HybridQuery.Json.Value
import HybridQuery.Temporal.Text
import HybridQuery.Text.Base64

/-!
# Items and JSON

* `Item.ofJson`: JSON numbers that are integers of 64 bits become integers; others become doubles if
  they print with an exponent and exact decimals if they do not.
* `Item.toJson`: decimals print normalized; times, durations and bytes print their lexical form.
* `Item.ofLine`: the item of a line of JSON.
-/

namespace HybridQuery
namespace Item

/-! ## From JSON -/

/-- The item of a JSON double: a decimal if its text has no exponent. -/
def ofDouble (d : Float) : Item :=
  match Double.text? d with
  | some text =>
    if text.any (· == 'e') then .double d
    else
      match Decimal.ofText? text with
      | some d => .decimal d
      | none => .double d
  | none => .double d

/-- The item of a JSON integer: a decimal if 64 bits with a sign do not hold it. -/
def ofInteger (n : Int) : Item :=
  if n < Power.two 63 then .integer (Int64.ofInt n) else .decimal (.ofInt n)

mutual
/-- The item of a JSON value. -/
def ofJson : Json → Item
  | .null => .null
  | .bool b => .boolean b
  | .integer n => ofInteger n
  | .double d => ofDouble d
  | .string s => .string s
  | .array members => .array (membersOfJson members)
  | .object pairs => .object (pairsOfJson pairs)

/-- The items of JSON values. -/
def membersOfJson : List Json → List Item
  | [] => []
  | m :: rest => ofJson m :: membersOfJson rest

/-- The pairs of a JSON object. -/
def pairsOfJson : List (String × Json) → List (String × Item)
  | [] => []
  | (key, value) :: rest => (key, ofJson value) :: pairsOfJson rest
end

/-! ## To JSON -/

/-- The JSON form of a double: a string where no number has it. -/
def doubleJson (d : Float) : Json :=
  match Double.denote d with
  | .finite .. => .double d
  | .nan => .string "NaN"
  | .infinite false => .string "INF"
  | .infinite true => .string "-INF"

/-- The JSON form of a decimal: the number its normalized text reads as, or its text if that
overflows. -/
def decimalJson (d : Decimal) : Json :=
  match Json.readNumber? d.normalized.text.toList with
  | some (number, []) => number
  | _ => .string d.text

/-- Adds a pair at the end, unless its key is there. -/
def addPair (pairs : List (String × Json)) (key : String) (value : Json) : List (String × Json) :=
  if pairs.any (·.1 == key) then pairs else pairs ++ [(key, value)]

mutual
/-- The JSON form of an item. Of pairs with one key the first is kept. -/
def toJson : Item → Json
  | .null => .null
  | .boolean b => .bool b
  | .integer n => .integer n.toInt
  | .decimal d => decimalJson d
  | .double d => doubleJson d
  | .string s => .string s
  | .date d => .string d.text
  | .dateTime t => .string t.text
  | .time t => .string t.text
  | .duration d => .string d.text
  | .binary bytes => .string (Base64.encode bytes)
  | .object pairs => .object ((pairsToJson pairs).foldl (fun done p => addPair done p.1 p.2) [])
  | .array members => .array (membersToJson members)
  | .function f => .string f.identifier

/-- The JSON forms of items. -/
def membersToJson : List Item → List Json
  | [] => []
  | m :: rest => toJson m :: membersToJson rest

/-- The JSON forms of pairs. -/
def pairsToJson : List (String × Item) → List (String × Json)
  | [] => []
  | (key, value) :: rest => (key, toJson value) :: pairsToJson rest
end

/-- The text of an item: its compact JSON form; a function has its identifier. -/
def text : Item → String
  | .function f => f.identifier
  | item => item.toJson.compact

/-! ## Lines -/

/-- Characters of a line that a message shows. -/
def shownLength : Nat := 64

/-- A line as a message shows it. -/
def shortened (line : String) : String :=
  let cs := line.toList
  if cs.length ≤ shownLength then line else String.ofList (cs.take shownLength) ++ "..."

/-- The item of a line of JSON. -/
def ofLine (line : String) : EngineResult Item :=
  match Json.read? line with
  | some json => .ok (ofJson json.merged)
  | none => .fail (.resource s!"Malformed JSON record '{shortened line}'")

end Item
end HybridQuery
