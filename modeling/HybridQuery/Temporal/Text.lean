import HybridQuery.Numeric.Decimal
import HybridQuery.Temporal.Clock
import HybridQuery.Text.Blank

/-!
# Lexical forms of dates, times and durations

Printing writes one form of each value; reading is more lenient.

* `Date.text`, `Date.ofText?`: `2024-03-01`; reading takes short months and days and signed years.
* `DateTime.text`, `DateTime.ofText?`: `2024-03-01T10:00:00+01:00`; without an offset it is UTC.
* `ZonedTime.text`, `ZonedTime.ofText?`: `10:00:00`, `10:00:00.500+01:00`.
* `Duration.text`, `Duration.ofText?`: `-PT90.5S`; reading takes days, hours, minutes and seconds.
-/

namespace HybridQuery

/-! ## Printing -/

/-- Digits of a number, filled up with zeros on the left. -/
def paddedDigits (width n : Nat) : List Char :=
  let ds := Decimal.digits n
  List.replicate (width - ds.length) '0' ++ ds

/-- A fraction of a second: nothing for zero, else a point and 3, 6 or 9 digits. -/
def fractionChars (nano : Nat) : List Char :=
  if nano = 0 then []
  else if nano % 1000000 = 0 then '.' :: paddedDigits 3 (nano / 1000000)
  else if nano % 1000 = 0 then '.' :: paddedDigits 6 (nano / 1000)
  else '.' :: paddedDigits 9 nano

/-- The characters of a date; years outside 0 to 9999 have a sign. -/
def Date.chars (d : Date) : List Char :=
  let year := paddedDigits 4 d.year.natAbs
  let year := if d.year < 0 then '-' :: year else if d.year > 9999 then '+' :: year else year
  year ++ '-' :: paddedDigits 2 d.month ++ '-' :: paddedDigits 2 d.day

/-- The text of a date. -/
def Date.text (d : Date) : String := String.ofList d.chars

/-- The characters of a time of day. -/
def ClockTime.chars (t : ClockTime) : List Char :=
  paddedDigits 2 t.hour ++ ':' :: paddedDigits 2 t.minute ++ ':' :: paddedDigits 2 t.writtenSecond
    ++ fractionChars t.writtenNano

/-- The characters of an offset from UTC; seconds stand only where there are some. -/
def offsetChars (offset : Int) : List Char :=
  let n := offset.natAbs
  (if offset < 0 then '-' else '+') :: paddedDigits 2 (n / 3600) ++ ':' :: paddedDigits 2 (n / 60 % 60)
    ++ if n % 60 = 0 then [] else ':' :: paddedDigits 2 (n % 60)

/-- The text of a time with its offset, if it has one. -/
def ZonedTime.text (t : ZonedTime) : String :=
  String.ofList (t.clock.chars ++ (t.offset.map offsetChars).getD [])

/-- The text of an instant at its offset. -/
def DateTime.text (t : DateTime) : String :=
  String.ofList (t.localDate.chars ++ 'T' :: t.localClock.chars ++ offsetChars t.offset)

/-- The text of a duration: its seconds, with a fraction that does not end in zero. -/
def Duration.text (d : Duration) : String :=
  let n := d.nanos.natAbs
  let fraction := n % nanosPerSecond
  let body :=
    if n = 0 then ['P', '0', 'D']
    else
      let fraction :=
        if fraction = 0 then []
        else '.' :: ((paddedDigits 9 fraction).reverse.dropWhile (· = '0')).reverse
      'P' :: 'T' :: Decimal.digits (n / nanosPerSecond) ++ fraction ++ ['S']
  String.ofList (Decimal.signed (d.nanos < 0) body)

/-! ## Reading fields -/

/-- A reader of a prefix: the value and what is left. -/
abbrev PrefixReader (α : Type) := List Char → Option (α × List Char)

/-- Reads the given character. -/
def literal (c : Char) : PrefixReader Unit
  | x :: rest => if x = c then some ((), rest) else none
  | [] => none

/-- Reads between `least` and `most` digits, as many as there are. -/
def digitField (least most : Nat) : PrefixReader Nat := fun cs =>
  let ds := (cs.take most).takeWhile Char.isDigit
  if ds.length < least then none
  else (Decimal.digitsValue? ds).map (·, cs.drop ds.length)

/-- Reads a field of one or two digits, blanks before it being skipped. -/
def shortField : PrefixReader Nat := fun cs => digitField 1 2 (Text.trimStart cs)

/-- Reads a year: up to four digits, or a sign and any number of digits. -/
def yearField : PrefixReader Int := fun cs =>
  match Text.trimStart cs with
  | '-' :: rest => (digitField 1 rest.length rest).map fun (n, rest) => (-(n : Int), rest)
  | '+' :: rest => (digitField 1 rest.length rest).map fun (n, rest) => ((n : Int), rest)
  | rest => (digitField 1 4 rest).map fun (n, rest) => ((n : Int), rest)

/-- Reads the digits of a fraction of a second; those past the ninth do not count. -/
def fractionField : PrefixReader Nat := fun cs => do
  let ds := cs.takeWhile Char.isDigit
  let kept := ds.take 9
  let n ← Decimal.digitsValue? kept
  return (n * Power.ten (9 - kept.length), cs.drop ds.length)

/-- Reads a fraction of a second, if there is one. -/
def optionalFraction : PrefixReader Nat
  | '.' :: rest => fractionField rest
  | cs => some (0, cs)

/-- Reads a date with short fields. -/
def dateField : PrefixReader Date := fun cs => do
  let (year, cs) ← yearField cs
  let (_, cs) ← literal '-' cs
  let (month, cs) ← shortField cs
  let (_, cs) ← literal '-' cs
  let (day, cs) ← shortField cs
  return (← Date.make? year month day, cs)

/-- Reads a time of day with short fields. -/
def clockField : PrefixReader ClockTime := fun cs => do
  let (hour, cs) ← shortField cs
  let (_, cs) ← literal ':' cs
  let (minute, cs) ← shortField cs
  let (_, cs) ← literal ':' cs
  let (second, cs) ← shortField cs
  let (nano, cs) ← optionalFraction cs
  return (← ClockTime.make? hour minute second nano, cs)

/-- The value of a reader that leaves nothing. -/
def PrefixReader.whole? {α : Type} (reader : PrefixReader α) (cs : List Char) : Option α :=
  match reader cs with
  | some (value, []) => some value
  | _ => none

/-! ## Reading dates and times -/

/-- Reads a date. -/
def Date.ofText? (s : String) : Option Date := dateField.whole? s.toList

/-- Greatest offset of a strict instant, in seconds: 23 hours and 59 minutes. -/
def greatestOffset : Int := (23 * 60 + 59) * 60

/-- Reads the offset of a strict instant: `Z`, or a sign and `hh:mm`. The sign may be U+2212. -/
def offsetField : PrefixReader Int
  | 'Z' :: rest => some (0, rest)
  | 'z' :: rest => some (0, rest)
  | sign :: rest => do
    guard (sign = '+' ∨ sign = '-' ∨ sign = '\u2212')
    let (hours, rest) ← digitField 2 2 rest
    let (_, rest) ← literal ':' rest
    let (minutes, rest) ← digitField 2 2 rest
    guard (minutes < 60)
    let seconds : Int := hours * 3600 + minutes * 60
    guard (seconds ≤ greatestOffset)
    return (if sign = '+' then seconds else -seconds, rest)
  | [] => none

/-- Reads the mark between the date and the time of a strict instant. -/
def dateTimeMark : PrefixReader Unit
  | c :: rest => if c = 'T' ∨ c = 't' ∨ c = ' ' then some ((), rest) else none
  | [] => none

/-- Reads a strict instant: every field in full width, and an offset. -/
def strictDateTime : PrefixReader DateTime := fun cs => do
  let (year, cs) ← digitField 4 4 cs
  let (_, cs) ← literal '-' cs
  let (month, cs) ← digitField 2 2 cs
  let (_, cs) ← literal '-' cs
  let (day, cs) ← digitField 2 2 cs
  let (_, cs) ← dateTimeMark cs
  let (hour, cs) ← digitField 2 2 cs
  let (_, cs) ← literal ':' cs
  let (minute, cs) ← digitField 2 2 cs
  let (_, cs) ← literal ':' cs
  let (second, cs) ← digitField 2 2 cs
  let (nano, cs) ← optionalFraction cs
  let (offset, cs) ← offsetField cs
  let date ← Date.make? year month day
  let clock ← ClockTime.make? hour minute second nano
  return (← DateTime.ofLocal? date clock offset, cs)

/-- Reads an instant without an offset, as UTC. -/
def plainDateTime : PrefixReader DateTime := fun cs => do
  let (date, cs) ← dateField cs
  let (_, cs) ← literal 'T' cs
  let (clock, cs) ← clockField cs
  return (← DateTime.ofLocal? date clock 0, cs)

/-- Reads an instant: strictly with an offset, else leniently without one. -/
def DateTime.ofText? (s : String) : Option DateTime :=
  (strictDateTime.whole? s.toList).orElse fun _ => plainDateTime.whole? s.toList

/-- The offset of a suffix `hh:mm` after its sign. Each part is an integer that may have a sign of its
own; the offset is less than a day. -/
def suffixOffset? (sign : Int) (cs : List Char) : Option Int := do
  let minutes := cs.dropWhile (· ≠ ':')
  guard (!minutes.isEmpty)
  let hours ← int32? (cs.takeWhile (· ≠ ':'))
  let minutes ← int32? (minutes.drop 1)
  let offset := sign * (hours * 3600 + minutes * 60)
  guard (-secondsPerDay < offset ∧ offset < secondsPerDay)
  return offset

/-- The last characters of a list that take six bytes in UTF-8, if a cut is possible there. -/
def lastSixBytes? (cs : List Char) : Option (List Char × List Char) :=
  let rec go : List Char → Nat → List Char → Option (List Char × List Char)
    | front, 0, tail => some (front.reverse, tail)
    | [], _ + 1, _ => none
    | c :: front, left, tail =>
      if c.utf8Size ≤ left then go front (left - c.utf8Size) (c :: tail) else none
  go cs.reverse 6 []

/-- A time of day and its offset: a final `Z` or six bytes that start with a sign. -/
def splitOffset? (cs : List Char) : Option (List Char × Option Int) :=
  if cs.getLast? = some 'Z' then some (cs.dropLast, some 0)
  else
    match lastSixBytes? cs with
    | some (clock, '+' :: zone) => (suffixOffset? 1 zone).map fun z => (clock, some z)
    | some (clock, '-' :: zone) => (suffixOffset? (-1) zone).map fun z => (clock, some z)
    | _ => some (cs, none)

/-- Reads a time with an optional offset. -/
def ZonedTime.ofText? (s : String) : Option ZonedTime := do
  let (clock, offset) ← splitOffset? s.toList
  return ⟨← clockField.whole? clock, offset⟩

/-! ## Reading durations -/

/-- The parts before and after the first occurrence of a character. -/
def splitOnce (c : Char) (cs : List Char) : Option (List Char × List Char) :=
  match cs.dropWhile (· ≠ c) with
  | [] => none
  | _ :: rest => some (cs.takeWhile (· ≠ c), rest)

/-- Adds a number of units to the seconds. -/
def addUnits? (seconds : Int) (count : List Char) (unit : Int) : Option Int := do
  let count ← int64? count
  fits64? (seconds + (← fits64? (count * unit)))

/-- Takes a component that ends in a unit letter off the front, if the letter occurs. -/
def takeUnit? (letter : Char) (unit seconds : Int) (cs : List Char) : Option (Int × List Char) :=
  match splitOnce letter cs with
  | some (count, rest) => (addUnits? seconds count unit).map (·, rest)
  | none => some (seconds, cs)

/-- The seconds component of a duration: whole seconds and nanoseconds. -/
def secondsPart? (seconds : Int) (cs : List Char) : Option (Int × Int) :=
  if cs.isEmpty then some (seconds, 0)
  else if cs.getLast? ≠ some 'S' then none
  else do
    let value := cs.dropLast
    let (whole, fraction) := (splitOnce '.' value).getD (value, [])
    let seconds ← addUnits? seconds whole 1
    if fraction.isEmpty then return (seconds, 0)
    let nanos ← int64? ((fraction ++ List.replicate 9 '0').take 9)
    return (seconds, nanos)

/-- Greatest number of whole seconds of a duration. -/
def Duration.greatestSeconds : Int := (Power.two 63 - 1) / 1000

/-- What the text of a duration says: its sign, whole seconds and nanoseconds. -/
structure DurationParts where
  negative : Bool
  seconds : Int
  nanos : Int
  deriving Repr, DecidableEq, Inhabited

/-- Whether a text starts with a minus, and what is left. -/
def takeMinus : List Char → Bool × List Char
  | '-' :: rest => (true, rest)
  | cs => (false, cs)

/-- The days of a duration and its clock, which follows a `T`. Not both are left out, and after a `T` there
is a clock. -/
def splitClock? (cs : List Char) : Option (List Char × List Char) :=
  match splitOnce 'T' cs with
  | some (_, []) => none
  | some (days, clock) => some (days, clock)
  | none => if cs.isEmpty then none else some (cs, [])

/-- The days component of a duration, in seconds. -/
def daysPart? (cs : List Char) : Option Int :=
  if cs.isEmpty then some 0
  else if cs.getLast? ≠ some 'D' then none
  else addUnits? 0 cs.dropLast secondsPerDay

/-- Reads the parts of a duration: sign, `P`, days, then after a `T` hours, minutes and seconds in this
order. More seconds than a duration has are refused. -/
def DurationParts.ofText? (s : String) : Option DurationParts := do
  let (negative, cs) := takeMinus s.toList
  let (_, cs) ← literal 'P' cs
  let (days, clock) ← splitClock? cs
  let seconds ← daysPart? days
  let (seconds, clock) ← takeUnit? 'H' 3600 seconds clock
  let (seconds, clock) ← takeUnit? 'M' 60 seconds clock
  let (seconds, nanos) ← secondsPart? seconds clock
  guard (seconds ≤ Duration.greatestSeconds)
  return ⟨negative, seconds, nanos⟩

/-- The duration of its parts, if the whole seconds, their sum with the nanoseconds and its opposite
are all in range. -/
def DurationParts.duration? (p : DurationParts) : Option Duration := do
  guard (-Duration.greatestSeconds ≤ p.seconds ∧ p.seconds ≤ Duration.greatestSeconds)
  let duration ← Duration.ofNanos? (p.seconds * nanosPerSecond + p.nanos)
  Duration.ofNanos? (if p.negative then -duration.nanos else duration.nanos)

/-- Reads a duration. -/
def Duration.ofText? (s : String) : Option Duration :=
  (DurationParts.ofText? s).bind DurationParts.duration?

end HybridQuery
