import HybridQuery.Numeric.Power
import HybridQuery.Temporal.Calendar

/-!
# Clock times, instants and durations

A clock time counts nanoseconds past a second up to two billion, because a leap second `:60` is kept
as the second before it with a second billion of nanoseconds.

* `ClockTime`, `ZonedTime`: a time of day, with or without an offset from UTC.
* `DateTime`: an instant in UTC together with the offset it was written with.
* `Duration`: a signed number of nanoseconds within `±Duration.bound`.
-/

namespace HybridQuery

/-- Nanoseconds of a second. -/
def nanosPerSecond : Nat := 1000000000

/-- Seconds of a day. -/
def secondsPerDay : Int := 86400

/-! ## Time of day -/

/-- A time of day. -/
structure ClockTime where
  /-- Whole seconds since midnight. -/
  second : Nat
  /-- Nanoseconds past that second; a leap second has more than a billion. -/
  nano : Nat
  deriving Repr, DecidableEq, Inhabited

namespace ClockTime

/-- The time of an hour, minute, second and nanosecond; the second may be 60. -/
def make? (hour minute second nano : Nat) : Option ClockTime :=
  if hour < 24 ∧ minute < 60 ∧ second ≤ 60 ∧ nano < nanosPerSecond then
    let base := hour * 3600 + minute * 60
    if second = 60 then some ⟨base + 59, nanosPerSecond + nano⟩ else some ⟨base + second, nano⟩
  else none

/-- The hour. -/
def hour (t : ClockTime) : Nat := t.second / 3600

/-- The minute of the hour. -/
def minute (t : ClockTime) : Nat := t.second / 60 % 60

/-- The second of the minute as it is written: 60 for a leap second. -/
def writtenSecond (t : ClockTime) : Nat := t.second % 60 + t.nano / nanosPerSecond

/-- The nanoseconds as they are written, less than a billion. -/
def writtenNano (t : ClockTime) : Nat := t.nano % nanosPerSecond

end ClockTime

/-- A time of day with an optional offset from UTC in seconds. -/
structure ZonedTime where
  clock : ClockTime
  offset : Option Int
  deriving Repr, DecidableEq, Inhabited

namespace ZonedTime

/-- Seconds since midnight UTC, which may lie in a neighbouring day; a time without an offset is read
as UTC. -/
def utcSecond (t : ZonedTime) : Int := t.clock.second - t.offset.getD 0

/-- Order of times: in UTC, nanoseconds last. -/
def compare (a b : ZonedTime) : Ordering :=
  (Ord.compare a.utcSecond b.utcSecond).then (Ord.compare a.clock.nano b.clock.nano)

end ZonedTime

/-! ## Instants -/

/-- An instant in UTC, with the offset from UTC that it is written with. -/
structure DateTime where
  /-- Number of the day in UTC. -/
  day : Int
  /-- Time of day in UTC. -/
  clock : ClockTime
  /-- Offset in seconds, less than a day. -/
  offset : Int
  deriving Repr, DecidableEq, Inhabited

namespace DateTime

/-- The instant at which clocks at an offset show a date and a time, if it is a supported day. -/
def ofLocal? (date : Date) (clock : ClockTime) (offset : Int) : Option DateTime :=
  let second := clock.second - offset
  let day := date.dayNumber + second / secondsPerDay
  if Date.firstDayNumber ≤ day ∧ day ≤ Date.lastDayNumber then
    some ⟨day, ⟨(second % secondsPerDay).toNat, clock.nano⟩, offset⟩
  else none

/-- Seconds since midnight UTC, shifted to the offset. -/
def localSecond (t : DateTime) : Int := t.clock.second + t.offset

/-- The date that clocks at the offset show. -/
def localDate (t : DateTime) : Date := Date.ofDayNumber (t.day + t.localSecond / secondsPerDay)

/-- The time that clocks at the offset show. -/
def localClock (t : DateTime) : ClockTime :=
  ⟨(t.localSecond % secondsPerDay).toNat, t.clock.nano⟩

/-- Order in time, whatever the offsets. -/
def compare (a b : DateTime) : Ordering :=
  (Ord.compare a.day b.day).then
    ((Ord.compare a.clock.second b.clock.second).then (Ord.compare a.clock.nano b.clock.nano))

end DateTime

/-! ## Durations -/

/-- A signed length of time in nanoseconds. -/
structure Duration where
  nanos : Int
  deriving Repr, DecidableEq, Inhabited

namespace Duration

/-- Greatest number of milliseconds of a duration. -/
def bound : Int := Power.two 63 - 1

/-- Nanoseconds of a millisecond. -/
def nanosPerMilli : Int := 1000000

/-- The duration of a number of nanoseconds, within the bound. -/
def ofNanos? (nanos : Int) : Option Duration :=
  if -bound * nanosPerMilli ≤ nanos ∧ nanos ≤ bound * nanosPerMilli then some ⟨nanos⟩ else none

/-- Order by length, negative ones first. -/
def compare (a b : Duration) : Ordering := Ord.compare a.nanos b.nanos

end Duration
end HybridQuery
