import HybridQuery.Json.Value

/-!
# Reading JSON

A recursive descent over the characters. Every pair that is written is kept; `Json.merged` gives the
value in which the last pair of a key wins.

* `Json.read?`: the value of a text, with nothing but blanks around it.
* `Json.readNumber?`: an integer that fits 64 bits stays one. Any other number becomes a double: the
  leading digits that fit 64 bits, scaled by a power of ten.

Nesting is limited to 127 levels. Why a text is refused is not reported.
-/

namespace HybridQuery
namespace Json

/-! ## Numbers -/

/-- Bound of the significand that a number is read into. -/
def significandBound : Nat := Power.two 64

/-- Greatest decimal exponent that is kept; greater ones saturate. -/
def exponentBound : Int := Power.two 31 - 1

/-- Greatest power of ten that is a double. -/
def powerBound : Nat := 308

/-- The double `10 ^ n`, for `n` up to `powerBound`. -/
def powerOfTen (n : Nat) : Float := Float.ofScientific 1 false n

/-- Scales by a power of ten in steps of at most `powerBound`; refuses what overflows. -/
def scaleByTen : Nat → Float → Int → Option Float
  | 0, f, _ => some f
  | fuel + 1, f, exponent =>
    if exponent.natAbs ≤ powerBound then
      if exponent ≥ 0 then
        let scaled := f * powerOfTen exponent.natAbs
        if Double.isFinite scaled then some scaled else none
      else some (f / powerOfTen exponent.natAbs)
    else if f == 0.0 then some f
    else if exponent ≥ 0 then none
    else scaleByTen fuel (f / powerOfTen powerBound) (exponent + powerBound)

/-- The double of a significand and a decimal exponent. A double is zero after four steps down, so
that the steps given always suffice. -/
def doubleOfParts (negative : Bool) (significand : Nat) (exponent : Int) : Option Float :=
  (scaleByTen 8 significand.toUInt64.toFloat exponent).map fun f => if negative then -f else f

/-- The value of a digit. -/
def digitValue (c : Char) : Nat := c.toNat - '0'.toNat

/-- Takes digits into a significand while it fits 64 bits. Gives the significand, how many digits it
took, and the characters from the first digit that does not fit. -/
def takeDigits (significand : Nat) : List Char → Nat × Nat × List Char
  | [] => (significand, 0, [])
  | c :: rest =>
    if c.isDigit ∧ significand * 10 + digitValue c < significandBound then
      let (s, n, rest) := takeDigits (significand * 10 + digitValue c) rest
      (s, n + 1, rest)
    else (significand, 0, c :: rest)

/-- An exponent's digits; `none` stands for one past `exponentBound`. -/
def exponentDigits (ds : List Char) : Option Int :=
  let n : Int := ds.foldl (fun n c => n * 10 + digitValue c) 0
  if n ≤ exponentBound then some n else none

/-- Keeps an exponent within the bounds of 32 bits. -/
def clampExponent (e : Int) : Int := max (-exponentBound - 1) (min exponentBound e)

/-- The exponent part of a number and its end; the letter has been read. -/
def readExponent? (negative : Bool) (significand : Nat) (start : Int) (cs : List Char) :
    Option (Float × List Char) :=
  let (down, cs) := match cs with
    | '+' :: cs => (false, cs)
    | '-' :: cs => (true, cs)
    | cs => (false, cs)
  let ds := cs.takeWhile Char.isDigit
  let rest := cs.dropWhile Char.isDigit
  if ds.isEmpty then none
  else
    match exponentDigits ds with
    | some e =>
      (doubleOfParts negative significand (clampExponent (if down then start - e else start + e))).map
        (·, rest)
    | none =>
      if significand ≠ 0 ∧ !down then none
      else some (if negative then -0.0 else 0.0, rest)

/-- What follows the digits of a number: an exponent, or the end. -/
def readScaled? (negative : Bool) (significand : Nat) (exponent : Int) :
    List Char → Option (Float × List Char)
  | 'e' :: cs => readExponent? negative significand exponent cs
  | 'E' :: cs => readExponent? negative significand exponent cs
  | cs => (doubleOfParts negative significand exponent).map (·, cs)

/-- The fraction of a number and what follows; the point has been read. Digits past the ones that fit
are dropped. -/
def readFraction? (negative : Bool) (significand : Nat) (start : Int) (cs : List Char) :
    Option (Float × List Char) :=
  if cs.head?.any Char.isDigit then
    let (significand, n, rest) := takeDigits significand cs
    readScaled? negative significand (start - n) (rest.dropWhile Char.isDigit)
  else none

/-- A number, the sign having been read. -/
def readUnsigned? (negative : Bool) (cs : List Char) : Option (Json × List Char) := do
  let first ← cs.head?
  guard first.isDigit
  let (significand, taken, rest) :=
    if first = '0' then (0, 1, cs.drop 1) else takeDigits 0 cs
  if first = '0' ∧ rest.head?.any Char.isDigit then none
  let dropped := rest.takeWhile Char.isDigit
  let asDouble := fun (r : Float × List Char) => (Json.double r.1, r.2)
  match dropped, rest.dropWhile Char.isDigit with
  | _, '.' :: rest =>
    (readFraction? negative significand dropped.length rest).map asDouble
  | [], 'e' :: rest | [], 'E' :: rest => (readExponent? negative significand 0 rest).map asDouble
  | [], rest =>
    let n : Int := if negative then -(significand : Int) else significand
    if negative ∧ (significand = 0 ∨ n < leastInteger) then
      some (.double (-significand.toUInt64.toFloat), rest)
    else if taken = 0 then none
    else some (.integer n, rest)
  | _, rest => (readScaled? negative significand dropped.length rest).map asDouble

/-- A number. -/
def readNumber? : List Char → Option (Json × List Char)
  | '-' :: cs => readUnsigned? true cs
  | cs => readUnsigned? false cs

/-! ## Strings -/

/-- The value of a hexadecimal digit. -/
def hexValue? (c : Char) : Option Nat :=
  if c.isDigit then some (c.toNat - '0'.toNat)
  else if 'a' ≤ c ∧ c ≤ 'f' then some (c.toNat - 'a'.toNat + 10)
  else if 'A' ≤ c ∧ c ≤ 'F' then some (c.toNat - 'A'.toNat + 10)
  else none

/-- A code unit from four hexadecimal digits. -/
def codeUnit? (a b c d : Char) : Option Nat := do
  return (((← hexValue? a) * 16 + (← hexValue? b)) * 16 + (← hexValue? c)) * 16 + (← hexValue? d)

/-- A character from the code unit of an escape; a high surrogate needs a low one after it. -/
def unicodeEscape? (unit : Nat) (rest : List Char) : Option (Char × List Char) :=
  if 0xDC00 ≤ unit ∧ unit ≤ 0xDFFF then none
  else if 0xD800 ≤ unit ∧ unit ≤ 0xDBFF then
    match rest with
    | '\\' :: 'u' :: a :: b :: c :: d :: rest =>
      (codeUnit? a b c d).bind fun low =>
        if 0xDC00 ≤ low ∧ low ≤ 0xDFFF then
          some (Char.ofNat (0x10000 + (unit - 0xD800) * 0x400 + (low - 0xDC00)), rest)
        else none
    | _ => none
  else some (Char.ofNat unit, rest)

/-- One character of a string, escaped or not. -/
def readChar? : List Char → Option (Char × List Char)
  | '\\' :: 'u' :: a :: b :: c :: d :: rest =>
    (codeUnit? a b c d).bind fun unit => unicodeEscape? unit rest
  | '\\' :: c :: rest =>
    match c with
    | '"' => some ('"', rest)
    | '\\' => some ('\\', rest)
    | '/' => some ('/', rest)
    | 'b' => some (Char.ofNat 8, rest)
    | 'f' => some (Char.ofNat 12, rest)
    | 'n' => some ('\n', rest)
    | 'r' => some ('\r', rest)
    | 't' => some ('\t', rest)
    | _ => none
  | c :: rest => if c.toNat < 32 ∨ c = '\\' then none else some (c, rest)
  | [] => none

/-- The characters up to the closing quote; every step consumes one character at least. -/
def readStringBody? : Nat → List Char → List Char → Option (String × List Char)
  | 0, _, _ => none
  | fuel + 1, done, cs =>
    match cs with
    | '"' :: rest => some (String.ofList done.reverse, rest)
    | cs =>
      match readChar? cs with
      | some (c, rest) => readStringBody? fuel (c :: done) rest
      | none => none

/-- A string literal, the opening quote having been read. -/
def readString? (cs : List Char) : Option (String × List Char) :=
  readStringBody? (cs.length + 1) [] cs

/-! ## Values -/

/-- The blanks of JSON. -/
def isBlank (c : Char) : Bool := c == ' ' || c == '\n' || c == '\t' || c == '\r'

/-- Drops leading blanks. -/
def skipBlanks (cs : List Char) : List Char := cs.dropWhile isBlank

/-- Levels of nesting that a text may have. -/
def nestingLimit : Nat := 127

mutual
/-- A value; `depth` levels of nesting are left. -/
def readValue? : Nat → Nat → List Char → Option (Json × List Char)
  | 0, _, _ => none
  | fuel + 1, depth, cs =>
    match skipBlanks cs with
    | 'n' :: 'u' :: 'l' :: 'l' :: rest => some (.null, rest)
    | 't' :: 'r' :: 'u' :: 'e' :: rest => some (.bool true, rest)
    | 'f' :: 'a' :: 'l' :: 's' :: 'e' :: rest => some (.bool false, rest)
    | '"' :: rest => (readString? rest).map fun (s, rest) => (.string s, rest)
    | '[' :: rest =>
      match depth, skipBlanks rest with
      | 0, _ => none
      | _, ']' :: rest => some (.array [], rest)
      | depth + 1, rest =>
        (readMembers? fuel depth rest).map fun (members, rest) => (.array members, rest)
    | '\x7b' :: rest =>
      match depth, skipBlanks rest with
      | 0, _ => none
      | _, '\x7d' :: rest => some (.object [], rest)
      | depth + 1, rest =>
        (readPairs? fuel depth rest).map fun (pairs, rest) => (.object pairs, rest)
    | cs => readNumber? cs

/-- Members up to the closing bracket. -/
def readMembers? : Nat → Nat → List Char → Option (List Json × List Char)
  | 0, _, _ => none
  | fuel + 1, depth, cs =>
    match readValue? fuel depth cs with
    | none => none
    | some (value, rest) =>
      match skipBlanks rest with
      | ']' :: rest => some ([value], rest)
      | ',' :: rest =>
        (readMembers? fuel depth rest).map fun (members, rest) => (value :: members, rest)
      | _ => none

/-- Pairs up to the closing brace. -/
def readPairs? : Nat → Nat → List Char → Option (List (String × Json) × List Char)
  | 0, _, _ => none
  | fuel + 1, depth, cs =>
    match skipBlanks cs with
    | '"' :: rest =>
      match readString? rest with
      | none => none
      | some (key, rest) =>
        match skipBlanks rest with
        | ':' :: rest =>
          match readValue? fuel depth rest with
          | none => none
          | some (value, rest) =>
            match skipBlanks rest with
            | '\x7d' :: rest => some ([(key, value)], rest)
            | ',' :: rest =>
              (readPairs? fuel depth rest).map fun (pairs, rest) => ((key, value) :: pairs, rest)
            | _ => none
        | _ => none
    | _ => none
end

/-- The value of a text with at most `depth` levels of nesting and nothing but blanks around it. Each
call of a reader inside it consumes a character or is followed by one that does, which bounds the
calls by twice the length. -/
def readNested? (depth : Nat) (text : String) : Option Json :=
  let cs := text.toList
  match readValue? (2 * cs.length + 2) depth cs with
  | some (value, rest) => if (skipBlanks rest).isEmpty then some value else none
  | none => none

/-- The value of a text, nested no deeper than `nestingLimit`. -/
def read? (text : String) : Option Json := readNested? nestingLimit text

end Json
end HybridQuery
