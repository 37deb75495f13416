import HybridQuery.Item.Basic

/-!
# Equality and order of items

* `Item.same`: structural equality. Numbers are equal if they are the same number, whatever their
  kind; NaN equals itself; objects compare pair by pair in order; functions by their handles.
* `Item.compare`: the order of atomics. Numbers compare exactly across their kinds, null is less than
  any other atomic, everything else compares within its own kind.
* `Sequence.truth`: the truth value of a sequence.
-/

namespace HybridQuery
namespace Item

/-! ## Equality -/

/-- Whether a double is exactly this decimal number. -/
def doubleIs (d : Float) (x : Decimal) : Bool :=
  match Double.toDecimal? d with
  | some y => x.eq y
  | none => false

/-- Whether a double is exactly this integer: it has no fraction, is within the range of the integers, and
cut to an integer is this one. -/
def doubleIsInteger (d : Float) (n : Int64) : Bool :=
  match Double.toDecimal? d with
  | some y =>
    let whole := y.truncate
    (Decimal.ofInt whole).eq y && Int64.minValue.toInt ≤ whole && whole ≤ Int64.maxValue.toInt &&
      Int64.ofInt whole == n
  | none => false

/-- Equality of numbers of any kind. -/
def sameNumber : Item → Item → Bool
  | .integer a, .integer b => a == b
  | .integer a, .decimal b => (Decimal.ofInt a.toInt).eq b
  | .decimal a, .integer b => a.eq (.ofInt b.toInt)
  | .decimal a, .decimal b => a.eq b
  | .integer a, .double b => doubleIsInteger b a
  | .double a, .integer b => doubleIsInteger a b
  | .decimal a, .double b => doubleIs b a
  | .double a, .decimal b => doubleIs a b
  | .double a, .double b => Double.eq a b
  | _, _ => false

mutual
/-- Equality of items. -/
def same : Item → Item → Bool
  | .null, .null => true
  | .boolean a, .boolean b => a == b
  | .string a, .string b => a == b
  | .date a, .date b => a == b
  | .dateTime a, .dateTime b => a.compare b == .eq
  | .time a, .time b => a.compare b == .eq
  | .duration a, .duration b => a == b
  | .binary a, .binary b => a == b
  | .object a, .object b => samePairs a b
  | .array a, .array b => sameMembers a b
  | .function a, .function b => a.isSame b
  | a, b => sameNumber a b

/-- Equality of lists of items. -/
def sameMembers : List Item → List Item → Bool
  | [], [] => true
  | a :: rest, b :: rest' => same a b && sameMembers rest rest'
  | _, _ => false

/-- Equality of pairs, keys and values in order. -/
def samePairs : List (String × Item) → List (String × Item) → Bool
  | [], [] => true
  | (key, value) :: rest, (key', value') :: rest' =>
    key == key' && same value value' && samePairs rest rest'
  | _, _ => false
end

/-! ## Order -/

/-- The exact value of a number, unless it is a double that is not finite. -/
def exactValue? : Item → Option Decimal
  | .double d => Double.toDecimal? d
  | item => item.decimal?

/-- Order of numbers: by their exact values; where one is not finite, as doubles. -/
def compareNumbers (a b : Item) : Ordering :=
  match a.exactValue?, b.exactValue? with
  | some x, some y => x.compare y
  | _, _ => Double.compare (a.double?.getD 0.0) (b.double?.getD 0.0)

/-- The fault of two items that have no order. -/
def incomparable (a b : Item) : Fault :=
  .typeMismatch s!"Cannot compare {a.typeName} with {b.typeName}"

/-- The order of two strings by their bytes in UTF-8, which is that of their code points. -/
def compareStrings (a b : String) : Ordering := Ord.compare a b

/-- Order of items of one kind other than numbers. -/
def compareAlike? : Item → Item → Option Ordering
  | .string a, .string b => some (compareStrings a b)
  | .boolean a, .boolean b => some (Ord.compare a b)
  | .date a, .date b => some (a.compare b)
  | .dateTime a, .dateTime b => some (a.compare b)
  | .time a, .time b => some (a.compare b)
  | .duration a, .duration b => some (a.compare b)
  | _, _ => none

/-- Order of atomics. -/
def compare (a b : Item) : EngineResult Ordering :=
  if a.isNull && b.isNull then .ok .eq
  else if a.isNull && b.isAtomic then .ok .lt
  else if b.isNull && a.isAtomic then .ok .gt
  else if a.isNumeric && b.isNumeric then .ok (compareNumbers a b)
  else
    match compareAlike? a b with
    | some ordering => .ok ordering
    | none => .fail (incomparable a b)

end Item

/-! ## Truth -/

/-- The fault of a sequence that has no truth value. -/
def Fault.noTruth (found : String) : Fault :=
  .typeMismatch s!"Effective boolean value is not defined for {found}"

/-- The truth value of a single item. -/
def Item.truth : Item → EngineResult Bool
  | .boolean b => .ok b
  | .null => .ok false
  | .string s => .ok (!s.isEmpty)
  | .integer n => .ok (n != 0)
  | .decimal d => .ok (!d.isZero)
  | .double d => .ok (!Double.isZero d && !Double.isNaN d)
  | .object _ => .ok true
  | .array _ => .ok true
  | item => .fail (.noTruth item.typeName)

/-- The truth value of a sequence: of its single item; true for several if the first is not atomic. -/
def Sequence.truth : Sequence → EngineResult Bool
  | [] => .ok false
  | [item] => item.truth
  | first :: _ =>
    if first.isAtomic then .fail (.noTruth "a sequence of more than one atomic") else .ok true

end HybridQuery
