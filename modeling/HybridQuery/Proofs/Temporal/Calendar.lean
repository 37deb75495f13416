import Mathlib.Tactic.IntervalCases
import HybridQuery.Temporal.Clock

/-!
# Counting days

Within an era of 400 years that starts in March, a day number is split into a year and a day of the year, and
the latter into a month and a day. Counting the days of a date and splitting their number gives the date again.

* `Date.IsValid`: a date of the calendar.
* `yearOfEra_daysBefore`: the year of a day of an era.
* `Date.ofDayNumber_dayNumber`: counting is undone.
-/

namespace HybridQuery

/-! ## Years of an era -/

/-- Number of days of an era before a year of it. -/
def daysBefore (year : Int) : Int := year * 365 + year / 4 - year / 100

/-- Number of days of an era before a day of it, without the leap days. -/
def withoutLeapDays (day : Int) : Int := day - day / 1460 + day / 36524 - day / 146096

/-- Leap days of the year that begins with a March and ends with the February of the next year. -/
def leapDays (year : Int) : Int := if Date.isLeap (year + 1) then 1 else 0

theorem withoutLeapDays_succ (day : Int) : withoutLeapDays day ≤ withoutLeapDays (day + 1) := by
  unfold withoutLeapDays
  omega

theorem withoutLeapDays_mono {a b : Int} (h : a ≤ b) : withoutLeapDays a ≤ withoutLeapDays b := by
  obtain ⟨n, rfl⟩ := Int.le.dest h
  clear h
  induction n with
  | zero => simp
  | succ n ih =>
    have hstep := withoutLeapDays_succ (a + n)
    rw [Int.add_assoc] at hstep
    push_cast
    exact ih.trans hstep

/-- The first and the last day of a year are at most 365 days apart, without the leap days. -/
theorem withoutLeapDays_daysBefore :
    ∀ year : Fin 400, 365 * (year : Int) ≤ withoutLeapDays (daysBefore year) ∧
      withoutLeapDays (daysBefore year + (364 + leapDays year)) ≤ 365 * (year : Int) + 364 := by
  decide +kernel

theorem yearOfEra_daysBefore {year day : Int} (hyear : 0 ≤ year ∧ year < 400)
    (hday : 0 ≤ day ∧ day ≤ 364 + leapDays year) :
    withoutLeapDays (daysBefore year + day) / 365 = year := by
  obtain ⟨y, rfl⟩ := Int.eq_ofNat_of_zero_le hyear.1
  obtain ⟨hfirst, hlast⟩ := withoutLeapDays_daysBefore ⟨y, by omega⟩
  have hge : withoutLeapDays (daysBefore y) ≤ withoutLeapDays (daysBefore y + day) :=
    withoutLeapDays_mono (by omega)
  have hle : withoutLeapDays (daysBefore y + day) ≤ withoutLeapDays (daysBefore y + (364 + leapDays y)) :=
    withoutLeapDays_mono (by omega)
  dsimp only at hfirst hlast
  change _ / _ = (y : Int)
  omega

namespace Date

/-! ## Months of a year -/

/-- A date that the calendar and the supported years hold. -/
structure IsValid (d : Date) : Prop where
  year : firstYear ≤ d.year ∧ d.year ≤ lastYear
  month : 1 ≤ d.month ∧ d.month ≤ 12
  day : 1 ≤ d.day ∧ d.day ≤ daysInMonth d.year d.month

theorem make?_eq_some_iff {year : Int} {month day : Nat} {d : Date} :
    make? year month day = some d ↔ d.IsValid ∧ d = ⟨year, month, day⟩ := by
  rw [make?, Option.ite_none_right_eq_some, Option.some_inj, eq_comm (a := d)]
  constructor
  · rintro ⟨⟨h₁, h₂, h₃, h₄, h₅, h₆⟩, rfl⟩
    exact ⟨⟨⟨h₁, h₂⟩, ⟨h₃, h₄⟩, ⟨h₅, h₆⟩⟩, rfl⟩
  · rintro ⟨h, rfl⟩
    exact ⟨⟨h.year.1, h.year.2, h.month.1, h.month.2, h.day.1, h.day.2⟩, rfl⟩

/-- The year of a date, counted from March. -/
def marchYear (d : Date) : Int := if d.month ≤ 2 then d.year - 1 else d.year

/-- The month of a date, counted from March. -/
def marchMonth (d : Date) : Int := (d.month + 9) % 12

/-- The day of the year, counted from March. -/
def marchDay (d : Date) : Int := (153 * d.marchMonth + 2) / 5 + d.day - 1

theorem leapDays_bounds (year : Int) : 0 ≤ leapDays year ∧ leapDays year ≤ 1 := by
  rw [leapDays]
  split <;> decide

theorem leapDays_marchYear {d : Date} (h : d.month = 2) :
    leapDays d.marchYear = if isLeap d.year then 1 else 0 := by
  simp [leapDays, marchYear, h]

/-- Five months from March on have 153 days, whichever month the first is; the year ends with the February. -/
theorem IsValid.marchMonth_eq {d : Date} (h : d.IsValid) :
    (5 * d.marchDay + 2) / 153 = d.marchMonth ∧ 0 ≤ d.marchDay ∧ d.marchDay ≤ 364 + leapDays d.marchYear := by
  obtain ⟨-, ⟨hfirst, hlast⟩, hpos, hday⟩ := h
  by_cases hfeb : d.month = 2
  · rw [leapDays_marchYear hfeb, marchDay, marchMonth, hfeb]
    rw [daysInMonth, if_pos hfeb] at hday
    cases hleap : isLeap d.year <;> simp [hleap] at hday ⊢ <;> omega
  · have hleap := (leapDays_bounds d.marchYear).1
    generalize leapDays d.marchYear = leap at hleap ⊢
    rw [daysInMonth, if_neg hfeb] at hday
    rw [marchDay, marchMonth]
    generalize d.month = month at *
    interval_cases month <;> simp at hday hfeb ⊢ <;> omega

/-- Number of the day in its era, counted from March. -/
def dayOfEra (d : Date) : Int := daysBefore (d.marchYear % 400) + d.marchDay

theorem leapDays_emod (year : Int) : leapDays (year % 400) = leapDays year := by
  have h₄ : (year % 400 + 1) % 4 = (year + 1) % 4 := by omega
  have h₁₀₀ : (year % 400 + 1) % 100 = (year + 1) % 100 := by omega
  have h₄₀₀ : (year % 400 + 1) % 400 = (year + 1) % 400 := by omega
  rw [leapDays, leapDays, isLeap, isLeap, h₄, h₁₀₀, h₄₀₀]

theorem IsValid.dayOfEra_bounds {d : Date} (h : d.IsValid) : 0 ≤ d.dayOfEra ∧ d.dayOfEra < 146097 := by
  obtain ⟨-, hpos, hday⟩ := h.marchMonth_eq
  have hleap := (leapDays_bounds d.marchYear).2
  simp only [dayOfEra, daysBefore]
  omega

theorem IsValid.yearOfEra_eq {d : Date} (h : d.IsValid) :
    withoutLeapDays d.dayOfEra / 365 = d.marchYear % 400 := by
  obtain ⟨-, hpos, hday⟩ := h.marchMonth_eq
  exact yearOfEra_daysBefore (by omega) ⟨hpos, by rwa [leapDays_emod]⟩

/-- A date is the era, the day of the era and the months of its number. -/
theorem ofDayNumber_dayNumber {d : Date} (h : d.IsValid) : ofDayNumber d.dayNumber = d := by
  have hnumber : d.dayNumber + 719468 = d.marchYear / 400 * 146097 + d.dayOfEra := by
    simp only [dayNumber, dayOfEra, marchDay, marchMonth, daysBefore, marchYear]
    omega
  have hbounds := h.dayOfEra_bounds
  have hera : (d.dayNumber + 719468) / 146097 = d.marchYear / 400 := by omega
  have hday : (d.dayNumber + 719468) % 146097 = d.dayOfEra := by omega
  have hyear : (d.dayOfEra - d.dayOfEra / 1460 + d.dayOfEra / 36524 - d.dayOfEra / 146096) / 365 =
      d.marchYear % 400 := h.yearOfEra_eq
  have hmarch : d.dayOfEra - (365 * (d.marchYear % 400) + d.marchYear % 400 / 4 - d.marchYear % 400 / 100) =
      d.marchDay := by
    simp only [dayOfEra, daysBefore]
    omega
  obtain ⟨hfirst, hlast⟩ := h.month
  have hmonth : (if d.marchMonth < 10 then d.marchMonth + 3 else d.marchMonth - 9) = d.month := by
    rw [marchMonth]
    omega
  have hdayOfMonth : d.marchDay - (153 * d.marchMonth + 2) / 5 + 1 = d.day := by
    rw [marchDay]
    omega
  have hshown : d.marchYear % 400 + d.marchYear / 400 * 400 + (if (d.month : Int) ≤ 2 then 1 else 0) = d.year := by
    rw [marchYear]
    omega
  simp only [ofDayNumber, hera, hday, hyear, hmarch, h.marchMonth_eq.1, hmonth, hdayOfMonth, hshown,
    Int.toNat_natCast]

end Date
end HybridQuery
