import HybridQuery.Numeric.Decimal

/-!
# Doubles as exact numbers

A finite double denotes `± mantissa · 2 ^ exponent`. This module reads that number off the bits and
writes it back, and derives from it everything that has to be exact:

* `Double.toDecimal?`: the number itself, as a decimal.
* `Double.shortest`: the decimal with the fewest digits that reads back as the double, the nearest of
  those, a tie going to the even digit.
* `Double.compare`: the total order in which NaN is the least and equals itself.
* `Double.remainder`: the exact remainder of the division that truncates.
* `Double.ofDecimal`: the double nearest to a decimal.
-/

namespace HybridQuery
namespace Double

/-! ## Bits -/

/-- What a double denotes. -/
inductive Denotation where
  | nan
  | infinite (negative : Bool)
  /-- The number `mantissa · 2 ^ exponent` with a sign; zero keeps its sign. -/
  | finite (negative : Bool) (mantissa : Nat) (exponent : Int)
  deriving Repr, DecidableEq

/-- Least exponent of a mantissa. -/
def leastExponent : Int := -1074

/-- First mantissa with all 53 bits. -/
def fullMantissa : Nat := Power.two 52

/-- Reads the number off the bits. -/
def denote (d : Float) : Denotation :=
  let bits := d.toBits.toNat
  let negative := bits / Power.two 63 = 1
  let field : Nat := bits / Power.two 52 % Power.two 11
  let fraction : Nat := bits % Power.two 52
  if field = 2047 then
    if fraction = 0 then .infinite negative else .nan
  else if field = 0 then .finite negative fraction leastExponent
  else .finite negative (fullMantissa + fraction) (leastExponent - 1 + field)

/-- Assembles a double from a mantissa below `Power.two 53` and an exponent of at least `leastExponent`, by
shifting the mantissa up as far as both allow. -/
def assemble (negative : Bool) (mantissa : Nat) (exponent : Int) : Float :=
  let room := (exponent - leastExponent).toNat
  let shift := min room (52 - mantissa.log2)
  let mantissa := mantissa * Power.two shift
  let exponent := exponent - shift
  let field := if mantissa < fullMantissa then 0 else (exponent - leastExponent + 1).toNat
  let sign := if negative then Power.two 63 else 0
  Float.ofBits (sign + field * Power.two 52 + mantissa % Power.two 52).toUInt64

/-- Whether the double is not a number. -/
def isNaN (d : Float) : Bool := denote d == .nan

/-- Whether the double is a number. -/
def isFinite (d : Float) : Bool :=
  match denote d with
  | .finite .. => true
  | _ => false

/-! ## The exact value -/

/-- The number `± mantissa · 2 ^ exponent` as a decimal. -/
def exactDecimal (negative : Bool) (mantissa : Nat) (exponent : Int) : Decimal :=
  let sign : Int := if negative then -1 else 1
  if exponent ≥ 0 then ⟨sign * (mantissa * Power.two exponent.toNat), 0⟩
  else ⟨sign * (mantissa * Power.five (-exponent).toNat), -exponent⟩

/-- The number that a finite double denotes. -/
def toDecimal? (d : Float) : Option Decimal :=
  match denote d with
  | .finite negative mantissa exponent => some (exactDecimal negative mantissa exponent)
  | _ => none

/-! ## The nearest double -/

/-- Bits of the positive infinity. -/
def infiniteBits : Nat := 2047 * Power.two 52

/-- The double with a sign and the bits of its size. -/
def ofSize (negative : Bool) (bits : Nat) : Float :=
  Float.ofBits ((if negative then Power.two 63 else 0) + bits).toUInt64

/-- A quotient, rounded to the nearest integer, a tie going to the even one. -/
def roundQuotient (num den : Nat) : Nat :=
  let quotient := num / den
  let rest := num % den
  if 2 * rest > den ∨ 2 * rest = den ∧ quotient % 2 = 1 then quotient + 1 else quotient

/-- How far the last of the 53 bits of a mantissa lies above the unit in which a number is counted. -/
def stepOf (units den : Nat) : Nat := (units / den).log2 - 52

/-- Bits of the double nearest to `num / den`; those of infinity past the range. The number is counted in
units of the least positive double. As many units make one step as leave a mantissa of 53 bits, and all
steps below have 52 bits to count them. -/
def nearestBits (num den : Nat) : Nat :=
  let units := num * Power.two (-leastExponent).toNat
  let step := stepOf units den
  min (step * Power.two 52 + roundQuotient units (den * Power.two step)) infiniteBits

/-- Decimal positions past which every nonzero number overflows or underflows. -/
def decimalRange : Int := 400

/-- The double nearest to a decimal, ties to even; infinite past the range. -/
def ofDecimal (d : Decimal) : Float :=
  ofSize (d.coefficient < 0) <|
    if d.coefficient = 0 ∨ d.magnitude < -decimalRange then 0
    else if d.magnitude > decimalRange then infiniteBits
    else nearestBits (d.coefficient.natAbs * Power.ten (-d.scale).toNat) (Power.ten d.scale.toNat)

/-- The double nearest to an integer of 64 bits. -/
def ofInt64 (n : Int64) : Float := ofDecimal (.ofInt n.toInt)

/-! ## Order and arithmetic -/

/-- Place among NaN, the negative infinity, the finite numbers and the positive infinity. -/
def Denotation.rank : Denotation → Nat
  | nan => 0
  | infinite true => 1
  | finite .. => 2
  | infinite false => 3

/-- Total order of doubles: NaN is the least and equals itself, the zeros are equal. -/
def compare (a b : Float) : Ordering :=
  match denote a, denote b with
  | .finite sa ma ea, .finite sb mb eb => (exactDecimal sa ma ea).compare (exactDecimal sb mb eb)
  | x, y => Ord.compare x.rank y.rank

/-- Equality of numbers; NaN equals itself and the zeros are equal. -/
def eq (a b : Float) : Bool := compare a b == .eq

/-- Whether the double is one of the zeros. -/
def isZero (d : Float) : Bool :=
  match denote d with
  | .finite _ mantissa _ => mantissa == 0
  | _ => false

/-- Remainder of the division that truncates, exact, with the sign of the dividend. -/
def remainder (a b : Float) : Float :=
  match denote a, denote b with
  | .finite sa ma ea, .finite _ mb eb =>
    if mb = 0 then 0.0 / 0.0
    else
      let e := min ea eb
      assemble sa (ma * Power.two (ea - e).toNat % (mb * Power.two (eb - e).toNat)) e
  | .finite .., .infinite _ => a
  | _, _ => 0.0 / 0.0

/-- The integer part of a finite double, towards zero. -/
def truncate? (d : Float) : Option Int := (toDecimal? d).map Decimal.truncate

/-! ## Shortest decimal -/

/-- The real numbers that round to a double, as the fractions `low / den` to `high / den` around
`value / den`; the ends belong to it when the mantissa is even. -/
structure Rounding where
  low : Nat
  value : Nat
  high : Nat
  den : Nat
  closed : Bool

/-- The numbers that round to `mantissa · 2 ^ exponent`. Below a power of two the neighbour is only
half as far. -/
def Rounding.of (mantissa : Nat) (exponent : Int) : Rounding :=
  let below := if mantissa = fullMantissa ∧ exponent > leastExponent then 1 else 2
  let scale := Power.two exponent.toNat
  { low := (4 * mantissa - below) * scale
    value := 4 * mantissa * scale
    high := (4 * mantissa + 2) * scale
    den := 4 * Power.two (-exponent).toNat
    closed := mantissa % 2 = 0 }

/-- Whether the decimal number `c · 10 ^ k` rounds to the double. -/
def Rounding.holds (r : Rounding) (c : Nat) (k : Int) : Bool :=
  let x := c * Power.ten k.toNat * r.den
  let unit := Power.ten (-k).toNat
  if r.closed then r.low * unit ≤ x && x ≤ r.high * unit
  else r.low * unit < x && x < r.high * unit

/-- The decimal on the grid of `10 ^ k` that rounds to the double: of the two neighbours of the value
the nearer, the even one on a tie. -/
def Rounding.onGrid? (r : Rounding) (k : Int) : Option Nat :=
  let unit := Power.ten (-k).toNat
  let step := Power.ten k.toNat * r.den
  let c := r.value * unit / step
  let rest := r.value * unit % step
  let up := if 2 * rest = step then c % 2 = 1 else 2 * rest > step
  let (near, far) := if up then (c + 1, c) else (c, c + 1)
  if r.holds near k then some near
  else if r.holds far k then some far
  else none

/-- Searches the grids from the coarsest on; at most 17 digits are ever needed. -/
def Rounding.search (r : Rounding) : Nat → Int → Option Decimal
  | 0, _ => none
  | fuel + 1, k =>
    match r.onGrid? k with
    | some c => some ⟨c, -k⟩
    | none => r.search fuel (k - 1)

/-- Position of the leading digit of `num / den`, which is not smaller than `10 ^ (-margin)`. -/
def leadingPosition (num den : Nat) : Int :=
  let margin : Nat := 340
  (Decimal.digitCount (num * Power.ten margin / den) : Int) - 1 - margin

/-- The decimal with the fewest digits that reads back as `mantissa · 2 ^ exponent`. -/
def shortestMagnitude (mantissa : Nat) (exponent : Int) : Decimal :=
  if mantissa = 0 then .zero
  else
    let r := Rounding.of mantissa exponent
    ((r.search 18 (leadingPosition r.value r.den)).getD (exactDecimal false mantissa exponent)).normalized

/-- Text of a finite double from its sign and shortest decimal. From `1e-5` below to `1e16` above the
digits are written out, always with a fraction; beyond, one digit stands before the point. -/
def finiteText (negative : Bool) (d : Decimal) : String :=
  let ds := Decimal.digits d.coefficient.natAbs
  let position := (ds.length : Int) - 1 - d.scale
  let body :=
    if -5 ≤ position ∧ position ≤ 15 then
      if d.scale ≤ 0 then ds ++ List.replicate (-d.scale).toNat '0' ++ ['.', '0']
      else Decimal.pointed ds d.scale.toNat
    else
      let mantissa := match ds with
        | [] | [_] => ds
        | c :: rest => c :: '.' :: rest
      mantissa ++ 'e' :: Decimal.exponentText position
  String.ofList (Decimal.signed negative body)

/-- Text of a finite double: the shortest digits that read back. -/
def text? (d : Float) : Option String :=
  match denote d with
  | .finite negative mantissa exponent =>
    some (finiteText negative (shortestMagnitude mantissa exponent))
  | _ => none

/-! ## Reading -/

/-- Reads a decimal floating-point literal: sign, digits with an optional point, optional exponent.
The result is the nearest double; it may be infinite. -/
def ofText? (s : String) : Option Float := do
  let (negative, cs) := match s.toList with
    | '-' :: cs => (true, cs)
    | '+' :: cs => (false, cs)
    | cs => (false, cs)
  let isE := fun c => c == 'e' || c == 'E'
  let base := cs.takeWhile (!isE ·)
  let exponent ← match cs.dropWhile (!isE ·) with
    | [] => some 0
    | _ :: e => Decimal.signedValue? e
  let whole := base.takeWhile (· ≠ '.')
  let fraction := (base.dropWhile (· ≠ '.')).drop 1
  let n ← Decimal.digitsValue? (whole ++ fraction)
  let size := ofDecimal ⟨n, fraction.length - exponent⟩
  return if negative then -size else size

end Double
end HybridQuery
