import HybridQuery.Numeric.Double

/-!
# JSON values

JSON data as text carries it: objects keep the order of their keys and every pair that was written,
numbers are integers of 64 bits or doubles. The compact text of a value has no spaces, pairs in their order,
the shortest digits that read back for a double, and escapes only where JSON demands them.

* `Json.merged`: the value with one pair per key, at the first position and with the last value.
* `Json.field?`: first pair of an object with a key.
* `Json.compact`: the text of a value.
-/

namespace HybridQuery

/-- A JSON value. -/
inductive Json where
  | null
  | bool (b : Bool)
  /-- An integer between `-2 ^ 63` and `2 ^ 64 - 1`. -/
  | integer (n : Int)
  /-- A finite double. -/
  | double (d : Float)
  | string (s : String)
  | array (members : List Json)
  | object (pairs : List (String × Json))
  deriving Inhabited

namespace Json

/-- Least integer that a JSON number keeps exactly. -/
def leastInteger : Int := -Power.two 63

/-- Greatest integer that a JSON number keeps exactly. -/
def greatestInteger : Int := Power.two 64 - 1

/-- Sets the value of a key: in place if the key is there, at the end otherwise. -/
def setPair (pairs : List (String × Json)) (key : String) (value : Json) : List (String × Json) :=
  if pairs.any (·.1 == key) then pairs.map fun p => if p.1 == key then (key, value) else p
  else pairs ++ [(key, value)]

/-- One pair for each key: the first position, the last value. -/
def mergePairs (pairs : List (String × Json)) : List (String × Json) :=
  pairs.foldl (fun done p => setPair done p.1 p.2) []

mutual
/-- The value with one pair per key in every object. -/
def merged : Json → Json
  | .array members => .array (mergedMembers members)
  | .object pairs => .object (mergePairs (mergedPairs pairs))
  | value => value

/-- `merged` of every member. -/
def mergedMembers : List Json → List Json
  | [] => []
  | m :: rest => merged m :: mergedMembers rest

/-- `merged` of every value. -/
def mergedPairs : List (String × Json) → List (String × Json)
  | [] => []
  | (key, value) :: rest => (key, merged value) :: mergedPairs rest
end

/-- The value of the first pair with this key; nothing for other values than objects. -/
def field? (json : Json) (key : String) : Option Json :=
  match json with
  | .object pairs => pairs.lookup key
  | _ => none

/-- The text of a JSON string value. -/
def string? : Json → Option String
  | .string s => some s
  | _ => none

/-- The members of a JSON array. -/
def array? : Json → Option (List Json)
  | .array members => some members
  | _ => none

/-- The value of a JSON integer. -/
def integer? : Json → Option Int
  | .integer n => some n
  | _ => none

/-! ## Printing -/

/-- Two lowercase hexadecimal digits. -/
def hexByte (n : Nat) : List Char := [Nat.digitChar (n / 16), Nat.digitChar (n % 16)]

/-- A character inside a JSON string. -/
def escapedChar (c : Char) : List Char :=
  if c = '"' then ['\\', '"']
  else if c = '\\' then ['\\', '\\']
  else if c = '\n' then ['\\', 'n']
  else if c = '\r' then ['\\', 'r']
  else if c = '\t' then ['\\', 't']
  else if c.toNat = 8 then ['\\', 'b']
  else if c.toNat = 12 then ['\\', 'f']
  else if c.toNat < 32 then '\\' :: 'u' :: '0' :: '0' :: hexByte c.toNat
  else [c]

/-- A JSON string literal. -/
def quoted (s : String) : List Char := '"' :: (s.toList.flatMap escapedChar ++ ['"'])

/-- Text of a JSON double; a value that is not finite has none and prints `null`. -/
def doubleChars (d : Float) : List Char :=
  match Double.text? d with
  | some s => s.toList
  | none => ['n', 'u', 'l', 'l']

mutual
/-- The characters of a value. -/
def chars : Json → List Char
  | .null => ['n', 'u', 'l', 'l']
  | .bool true => ['t', 'r', 'u', 'e']
  | .bool false => ['f', 'a', 'l', 's', 'e']
  | .integer n => Decimal.intText n
  | .double d => doubleChars d
  | .string s => quoted s
  | .array members => '[' :: (memberChars members ++ [']'])
  | .object pairs => '\x7b' :: (pairChars pairs ++ ['\x7d'])

/-- Members with commas between them. -/
def memberChars : List Json → List Char
  | [] => []
  | [m] => chars m
  | m :: rest => chars m ++ ',' :: memberChars rest

/-- Pairs with commas between them. -/
def pairChars : List (String × Json) → List Char
  | [] => []
  | [(key, value)] => quoted key ++ ':' :: chars value
  | (key, value) :: rest => quoted key ++ ':' :: (chars value ++ ',' :: pairChars rest)
end

/-- The compact text of a value. -/
def compact (json : Json) : String := String.ofList (chars json)

end Json
end HybridQuery
