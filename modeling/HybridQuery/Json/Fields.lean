import HybridQuery.Json.Value

/-!
# Records in JSON

Reading a record of known fields. A record is an object, in which unknown keys are ignored and a
known key may stand once, or an array of its fields in order, in which those at the end may be left
out. A field that is absent takes its default, if it has one.

* `Json.record?`: the fields of a record by their names.
* `Json.natural?`, `Json.variant?`, `Json.listOf?`: the usual kinds of field.
-/

namespace HybridQuery
namespace Json

/-- The value of a key that may stand once: nothing if it stands twice, `some none` if it is
absent. -/
def onlyPair? (pairs : List (String × Json)) (key : String) : Option (Option Json) :=
  match pairs.filter (·.1 == key) with
  | [] => some none
  | [(_, value)] => some (some value)
  | _ => none

/-- The fields of an object, in the order of the names. -/
def objectFields? (names : List String) : Json → Option (List (Option Json))
  | .object pairs => names.mapM (onlyPair? pairs)
  | _ => none

/-- The fields of a record, in the order of the names. -/
def record? (names : List String) : Json → Option (List (Option Json))
  | .array members =>
    if members.length ≤ names.length then
      some (members.map some ++ List.replicate (names.length - members.length) none)
    else none
  | json => objectFields? names json

/-- A field that has a default. -/
def orDefault {α : Type} (field : Option Json) (default : α) (read : Json → Option α) : Option α :=
  match field with
  | none => some default
  | some json => read json

/-- A field that must be there. -/
def required {α : Type} (field : Option Json) (read : Json → Option α) : Option α :=
  field.bind read

/-- A field that is `null` or a value. -/
def nullable {α : Type} (read : Json → Option α) : Json → Option (Option α)
  | .null => some none
  | json => (read json).map some

/-- A natural number below a bound. -/
def natural? (bound : Nat) : Json → Option Nat
  | .integer n => if 0 ≤ n ∧ n < bound then some n.toNat else none
  | _ => none

/-- A truth value. -/
def bool? : Json → Option Bool
  | .bool b => some b
  | _ => none

/-- Bound of the naturals of 32 bits. -/
def bound32 : Nat := Power.two 32

/-- Bound of the naturals of 64 bits. -/
def bound64 : Nat := Power.two 64

/-- The members of an array, each read. -/
def listOf? {α : Type} (read : Json → Option α) : Json → Option (List α)
  | .array members => members.mapM read
  | _ => none

/-- One of named choices: its name, or an object with the name as its only key and nothing as its
value. -/
def choice? {α : Type} (choices : List (String × α)) : Json → Option α
  | .string s => choices.lookup s
  | .object [(s, .null)] => choices.lookup s
  | .object [(s, .object [])] => choices.lookup s
  | _ => none

/-- The tag of an object that has several shapes: a name, or its place among the names. -/
def tag? (names : List String) : Json → Option String
  | .string s => if names.contains s then some s else none
  | .integer n => if 0 ≤ n then names[n.toNat]? else none
  | _ => none

mutual
/-- Number of values in a value, itself included. -/
def weight : Json → Nat
  | .array members => memberWeight members + 1
  | .object pairs => pairWeight pairs + 1
  | _ => 1

/-- Number of values in a list. -/
def memberWeight : List Json → Nat
  | [] => 0
  | m :: rest => weight m + memberWeight rest

/-- Number of values in a list of pairs. -/
def pairWeight : List (String × Json) → Nat
  | [] => 0
  | (_, value) :: rest => weight value + pairWeight rest
end

end Json
end HybridQuery
