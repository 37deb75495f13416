import HybridQuery.Numeric.Power

/-!
# Exact decimals

A decimal is `coefficient · 10 ^ (-scale)`, kept as it was written: `1.50` and `1.5` are the same
number with different scales. Equality and order compare the numbers.

* `Decimal.compare`, `Decimal.eq`: through a common scale, exact.
* `Decimal.add`, `sub`, `mul`, `remainder`: exact.
* `Decimal.divide`: long division to 100 significant digits, the next digit rounds half up.
* `Decimal.ofText?`, `Decimal.text`: the lexical forms.
* `int32?`, `int64?`: integers that have to fit in 32 or 64 bits with a sign.
-/

namespace HybridQuery

/-- A decimal number `coefficient · 10 ^ (-scale)`. -/
structure Decimal where
  /-- All significant digits, with the sign. -/
  coefficient : Int
  /-- Number of digits after the point; negative for trailing zeros that are not written. -/
  scale : Int
  deriving Repr, Inhabited

namespace Decimal

/-! ## Construction and normal form -/

/-- An integer as a decimal. -/
def ofInt (n : Int) : Decimal := ⟨n, 0⟩

/-- Zero with scale zero. -/
def zero : Decimal := ofInt 0

/-- Whether the number is zero, at any scale. -/
def isZero (d : Decimal) : Bool := d.coefficient == 0

/-- Digits of a natural number in base ten. -/
def digits (n : Nat) : List Char := Nat.toDigits 10 n

/-- Number of digits of a natural number in base ten. -/
def digitCount (n : Nat) : Nat := (digits n).length

/-- Removes at most `fuel` trailing zeros from a coefficient, lowering the scale with each. -/
def stripZeros : Nat → Int → Int → Decimal
  | 0, c, s => ⟨c, s⟩
  | fuel + 1, c, s => if c % 10 = 0 then stripZeros fuel (c / 10) (s - 1) else ⟨c, s⟩

/-- The same number with no trailing zeros in the coefficient; zero has scale zero. -/
def normalized (d : Decimal) : Decimal :=
  if d.coefficient = 0 then zero
  else stripZeros (digitCount d.coefficient.natAbs) d.coefficient d.scale

/-! ## Order -/

/-- The coefficient of a decimal written at scale `s`, for `s` at least its own scale. -/
def coefficientAt (d : Decimal) (s : Int) : Int := d.coefficient * Power.ten (s - d.scale).toNat

/-- Position of the leading digit: the number lies in `[10 ^ (m - 1), 10 ^ m)` in magnitude. -/
def magnitude (d : Decimal) : Int := digitCount d.coefficient.natAbs - d.scale

/-- Comparison of the numbers. The position of the leading digit decides first, so that numbers of
very different size are compared without writing out their digits. -/
def compare (a b : Decimal) : Ordering :=
  if a.coefficient.sign ≠ b.coefficient.sign then Ord.compare a.coefficient.sign b.coefficient.sign
  else if a.coefficient = 0 then .eq
  else if a.magnitude ≠ b.magnitude then
    if a.coefficient > 0 then Ord.compare a.magnitude b.magnitude
    else Ord.compare b.magnitude a.magnitude
  else
    let s := max a.scale b.scale
    Ord.compare (a.coefficientAt s) (b.coefficientAt s)

/-- Equality of the numbers. -/
def eq (a b : Decimal) : Bool := compare a b == .eq

/-! ## Arithmetic -/

/-- The opposite number. -/
def neg (d : Decimal) : Decimal := ⟨-d.coefficient, d.scale⟩

/-- Exact sum, at the larger scale. -/
def add (a b : Decimal) : Decimal :=
  let s := max a.scale b.scale
  ⟨a.coefficientAt s + b.coefficientAt s, s⟩

/-- Exact difference, at the larger scale. -/
def sub (a b : Decimal) : Decimal := add a (neg b)

/-- Exact product. -/
def mul (a b : Decimal) : Decimal := ⟨a.coefficient * b.coefficient, a.scale + b.scale⟩

/-- Exact remainder of the division that truncates towards zero; it has the sign of the dividend. -/
def remainder (a b : Decimal) : Decimal :=
  let s := max a.scale b.scale
  ⟨Int.tmod (a.coefficientAt s) (b.coefficientAt s), s⟩

/-- The integer part, towards zero. -/
def truncate (d : Decimal) : Int :=
  if d.scale ≤ 0 then d.coefficient * Power.ten (-d.scale).toNat
  else Int.tdiv d.coefficient (Power.ten d.scale.toNat)

/-- Significant digits of a quotient that does not end. -/
def quotientDigits : Nat := 100

/-- How often a dividend has to grow tenfold to reach a positive divisor. -/
def upscale (fuel num den : Nat) : Nat :=
  match fuel with
  | 0 => 0
  | fuel + 1 => if num < den then upscale fuel (num * 10) den + 1 else 0

/-- One more digit at a time, until the remainder is zero or `fuel` digits were added; `rest` is the
remainder times ten. Gives the quotient, what is left, and how many digits were added. -/
def moreDigits (den : Nat) : Nat → Nat → Nat → Nat × Nat × Nat
  | 0, quotient, rest => (quotient, rest, 0)
  | fuel + 1, quotient, rest =>
    if rest = 0 then (quotient, 0, 0)
    else
      let (q, r, n) := moreDigits den fuel (quotient * 10 + rest / den) (rest % den * 10)
      (q, r, n + 1)

/-- Long division of positive integers: all integer digits of the first quotient, then up to
`quotientDigits` significant digits, then half up by the next digit. -/
def divideNat (num den : Nat) (scale : Int) : Nat × Int :=
  let shift := upscale (digitCount den + 1) num den
  let num := num * Power.ten shift
  let first := num / den
  let (quotient, rest, more) :=
    moreDigits den (quotientDigits - digitCount first) first (num % den * 10)
  let rounding := if rest / den ≥ 5 then 1 else 0
  (quotient + rounding, scale + shift + more)

/-- Quotient to 100 significant digits, for a nonzero divisor. A zero dividend and a divisor equal to
one give the dividend back. -/
def divide (a b : Decimal) : Decimal :=
  if a.isZero || b.eq (ofInt 1) then a
  else
    let (q, scale) := divideNat a.coefficient.natAbs b.coefficient.natAbs (a.scale - b.scale)
    ⟨a.coefficient.sign * b.coefficient.sign * q, scale⟩

/-! ## Text -/

/-- Digits of an integer with its sign in front. -/
def signed (negative : Bool) (text : List Char) : List Char :=
  if negative then '-' :: text else text

/-- Text of an integer. -/
def intText (n : Int) : List Char := signed (n < 0) (digits n.natAbs)

/-- An exponent with its sign, also when it is positive. -/
def exponentText (n : Int) : List Char :=
  (if n < 0 then '-' else '+') :: digits n.natAbs

/-- Digits with the point `scale` places from the right, zeros filling up on the left. -/
def pointed (ds : List Char) (scale : Nat) : List Char :=
  if scale < ds.length then ds.take (ds.length - scale) ++ '.' :: ds.drop (ds.length - scale)
  else '0' :: '.' :: (List.replicate (scale - ds.length) '0' ++ ds)

/-- Most leading zeros after the point that are still written out. -/
def leadingZeroLimit : Int := 5

/-- Most trailing zeros before the point that are still written out. -/
def trailingZeroLimit : Int := 15

/-- The text of a decimal: written out, unless more than five zeros would follow the point
(`1.5E-7`) or more than fifteen would precede it (`15e+20`). -/
def text (d : Decimal) : String :=
  let ds := digits d.coefficient.natAbs
  let body :=
    if d.scale - ds.length > leadingZeroLimit then
      let exponent := ds.length - d.scale - 1
      let mantissa := match ds with
        | [] | [_] => ds
        | c :: rest => c :: '.' :: rest
      mantissa ++ 'E' :: exponentText exponent
    else if -d.scale > trailingZeroLimit then ds ++ 'e' :: exponentText (-d.scale)
    else if d.scale ≤ 0 then ds ++ List.replicate (-d.scale).toNat '0'
    else pointed ds d.scale.toNat
  String.ofList (signed (d.coefficient < 0) body)

/-- The value of a nonempty list of digits. -/
def digitsValue? (ds : List Char) : Option Nat :=
  if ds.isEmpty || !ds.all Char.isDigit then none
  else some (ds.foldl (fun n c => n * 10 + (c.toNat - '0'.toNat)) 0)

/-- An integer with an optional sign. -/
def signedValue? : List Char → Option Int
  | '-' :: ds => (digitsValue? ds).map fun n => -(n : Int)
  | '+' :: ds => (digitsValue? ds).map fun n => (n : Int)
  | ds => (digitsValue? ds).map fun n => (n : Int)

/-- An integer with an optional sign whose digits may be separated by underscores after the first. -/
def separatedValue? (cs : List Char) : Option Int :=
  let (negative, cs) := match cs with
    | '-' :: '+' :: _ => (true, cs)
    | '-' :: rest => (true, rest)
    | _ => (false, cs)
  let cs := match cs with
    | '+' :: '+' :: _ => cs
    | '+' :: rest => rest
    | _ => cs
  if cs.head? = some '_' then none
  else (digitsValue? (cs.filter (· ≠ '_'))).map fun n => if negative then -(n : Int) else n

/-- Reads a decimal: sign, digits with an optional point at any place, optional exponent. -/
def ofText? (s : String) : Option Decimal := do
  let cs := s.toList
  let isE := fun c => c == 'e' || c == 'E'
  let base := cs.takeWhile (!isE ·)
  let exponent ← match cs.dropWhile (!isE ·) with
    | [] => some 0
    | _ :: e => signedValue? e
  guard (-Power.two 127 ≤ exponent ∧ exponent < Power.two 127)
  let lead := base.takeWhile (· ≠ '.')
  let trail := (base.dropWhile (· ≠ '.')).drop 1
  let coefficient ← separatedValue? (lead ++ trail)
  let scale := (trail.filter (· ≠ '_')).length - exponent
  guard (-Power.two 63 ≤ scale ∧ scale < Power.two 63)
  return ⟨coefficient, scale⟩

end Decimal

/-! ## Integers of bounded size -/

/-- A number that fits in 64 bits, or nothing where it does not. -/
def fits64? (n : Int) : Option Int := if -Power.two 63 ≤ n ∧ n < Power.two 63 then some n else none

/-- A number that fits in 32 bits, or nothing where it does not. -/
def fits32? (n : Int) : Option Int := if -Power.two 31 ≤ n ∧ n < Power.two 31 then some n else none

/-- Reads an integer of 32 bits with an optional sign. -/
def int32? (cs : List Char) : Option Int := (Decimal.signedValue? cs).bind fits32?

/-- Reads an integer of 64 bits with an optional sign. -/
def int64? (cs : List Char) : Option Int := (Decimal.signedValue? cs).bind fits64?

end HybridQuery
