import Mathlib.Data.Option.Basic
import HybridQuery.Item.Cast
import HybridQuery.Proofs.Durations.Numerals

/-!
# Forms of durations

The text of a duration is its sign, `P`, days, and after a `T` hours, minutes and seconds; any component may
be left out. Reading splits a text into such a form, whatever stands in place of the digits, and adds up its
components.

* `DurationForm`, `DurationForm.chars`: a form, and its text.
* `splitClock?_eq_some_iff`, `daysPart?_eq_some_iff`, `takeUnit?_eq_some_iff`, `secondsPart?_eq_some_iff`:
  what the stages of reading split off.
* `DurationParts.ofText?_eq_some_iff`: reading is splitting into a form and adding up.
-/

namespace HybridQuery

/-! ## Splitting texts -/

theorem splitOnce_cons (c x : Char) (cs : List Char) :
    splitOnce c (x :: cs) =
      if x = c then some ([], cs) else (splitOnce c cs).map fun p => (x :: p.1, p.2) := by
  by_cases h : x = c
  · simp [splitOnce, h]
  · rw [splitOnce, splitOnce, if_neg h, List.dropWhile_cons_of_pos (by simpa using h),
      List.takeWhile_cons_of_pos (by simpa using h)]
    cases cs.dropWhile (· ≠ c) <;> rfl

theorem splitOnce_eq_some_iff {c : Char} {cs a b : List Char} :
    splitOnce c cs = some (a, b) ↔ cs = a ++ c :: b ∧ c ∉ a := by
  induction cs generalizing a b with
  | nil => simp [splitOnce]
  | cons x cs ih =>
    rw [splitOnce_cons]
    split
    case isTrue h =>
      subst h
      cases a <;> simp +contextual [eq_comm]
    case isFalse h =>
      cases a with
      | nil => simp [h]
      | cons y a =>
        simp only [Option.map_eq_some_iff, Prod.exists, ih, Prod.mk.injEq, List.cons.injEq, List.cons_append,
          List.mem_cons, not_or]
        constructor
        · rintro ⟨_, _, ⟨rfl, ha⟩, ⟨rfl, rfl⟩, rfl⟩
          exact ⟨⟨rfl, rfl⟩, Ne.symm h, ha⟩
        · rintro ⟨⟨rfl, rfl⟩, -, ha⟩
          exact ⟨_, _, ⟨rfl, ha⟩, ⟨rfl, rfl⟩, rfl⟩

theorem splitOnce_eq_none_iff {c : Char} {cs : List Char} : splitOnce c cs = none ↔ c ∉ cs := by
  induction cs with
  | nil => simp [splitOnce]
  | cons x cs ih =>
    rw [splitOnce_cons]
    split
    case isTrue h => simp [h]
    case isFalse h => simp [ih, Ne.symm h]

/-! ## Forms -/

/-- The parts of a text of a duration: its sign, and the digits of each component that is there. -/
structure DurationForm where
  negative : Bool
  days : Option (List Char)
  hours : Option (List Char)
  minutes : Option (List Char)
  seconds : Option (List Char × Option (List Char))

/-- A count and its unit letter. -/
def unitChars (letter : Char) : Option (List Char) → List Char
  | none => []
  | some count => count ++ [letter]

/-- The seconds, which may have a fraction. -/
def secondsChars : Option (List Char × Option (List Char)) → List Char
  | none => []
  | some (whole, none) => whole ++ ['S']
  | some (whole, some fraction) => whole ++ '.' :: fraction ++ ['S']

/-- The components within a day, which follow a `T`. -/
def afterT (clock : List Char) : List Char := if clock = [] then [] else 'T' :: clock

namespace DurationForm

/-- The components within a day. -/
def clock (f : DurationForm) : List Char :=
  unitChars 'H' f.hours ++ (unitChars 'M' f.minutes ++ secondsChars f.seconds)

/-- The whole seconds. -/
abbrev whole (f : DurationForm) : Option (List Char) := f.seconds.map (·.1)

/-- The fraction of the seconds. -/
abbrev fraction (f : DurationForm) : Option (List Char) := f.seconds.bind (·.2)

/-- The components of a form. -/
def body (f : DurationForm) : List Char := unitChars 'D' f.days ++ afterT f.clock

/-- The text of a form. -/
def chars (f : DurationForm) : List Char :=
  (if f.negative then ['-'] else []) ++ 'P' :: f.body

/-- A form has a component, and its counts and its fraction are written as the two predicates say. -/
structure Spelled (count fraction : List Char → Prop) (f : DurationForm) : Prop where
  days : ∀ ds ∈ f.days, count ds
  hours : ∀ ds ∈ f.hours, count ds
  minutes : ∀ ds ∈ f.minutes, count ds
  whole : ∀ ds ∈ f.whole, count ds
  fraction : ∀ ds ∈ f.fraction, fraction ds
  component : f.days ≠ none ∨ f.clock ≠ []

/-- The nanoseconds of the components of a form, by the values of counts and of a fraction. -/
def nanos (count fraction : List Char → Int) (f : DurationForm) : Int :=
  (f.days.elim 0 count * secondsPerDay + f.hours.elim 0 count * 3600 + f.minutes.elim 0 count * 60
    + f.whole.elim 0 count) * nanosPerSecond + f.fraction.elim 0 fraction

end DurationForm

/-! ## Stages of reading -/

theorem addUnits?_eq_some_iff {seconds unit r : Int} {count : List Char} :
    addUnits? seconds count unit = some r ↔
      (IsSigned count ∧ Fits64 (signedNumeral count) ∧ Fits64 (signedNumeral count * unit) ∧
        Fits64 (seconds + signedNumeral count * unit)) ∧ r = seconds + signedNumeral count * unit := by
  simp only [addUnits?, Option.bind_eq_bind, Option.bind_eq_some_iff, int64?_eq_some_iff, fits64?_eq_some_iff]
  constructor
  · rintro ⟨_, ⟨h, hc, rfl⟩, _, ⟨hu, rfl⟩, hs, rfl⟩
    exact ⟨⟨h, hc, hu, hs⟩, rfl⟩
  · rintro ⟨⟨h, hc, hu, hs⟩, rfl⟩
    exact ⟨_, ⟨h, hc, rfl⟩, _, ⟨hu, rfl⟩, hs, rfl⟩

theorem unitChars_eq_nil {letter : Char} {count : Option (List Char)} :
    unitChars letter count = [] ↔ count = none := by
  cases count <;> simp [unitChars]

/-- Adds the units of a component that may be left out. -/
def addCount? (seconds unit : Int) : Option (List Char) → Option Int
  | none => some seconds
  | some count => addUnits? seconds count unit

theorem isSigned_of_addCount? {seconds unit r : Int} {count : Option (List Char)}
    (h : addCount? seconds unit count = some r) : ∀ ds ∈ count, IsSigned ds := by
  rintro ds rfl
  exact (addUnits?_eq_some_iff.mp h).1.1

theorem takeUnit?_eq_some_iff {letter : Char} {unit seconds r : Int} {cs rest : List Char}
    (hd : letter.isDigit = false) (hp : letter ≠ '+') (hm : letter ≠ '-') :
    takeUnit? letter unit seconds cs = some (r, rest) ↔
      ∃ count, cs = unitChars letter count ++ rest ∧ (count = none → letter ∉ rest) ∧
        addCount? seconds unit count = some r := by
  rw [takeUnit?]
  constructor
  · intro h
    split at h
    case h_1 count rest' hs =>
      obtain ⟨r', hr, ⟨⟩⟩ := Option.map_eq_some_iff.mp h
      obtain ⟨rfl, -⟩ := splitOnce_eq_some_iff.mp hs
      exact ⟨some count, by simp [unitChars], by simp, hr⟩
    case h_2 hs =>
      cases h
      exact ⟨none, rfl, fun _ => splitOnce_eq_none_iff.mp hs, rfl⟩
  · rintro ⟨_ | count, rfl, hn, h⟩
    · cases h
      rw [splitOnce_eq_none_iff.mpr (hn rfl)]
    · -- A count that can be added has no letters in it, so that the split is at the letter after it.
      have hs : splitOnce letter (unitChars letter (some count) ++ rest) = some (count, rest) :=
        splitOnce_eq_some_iff.mpr ⟨by simp [unitChars], (isSigned_of_addCount? h _ rfl).not_mem hd hp hm⟩
      rw [hs]
      exact Option.map_eq_some_iff.mpr ⟨r, h, rfl⟩

/-- The first nine digits of a fraction, filled up with zeros. -/
def nineDigits (ds : List Char) : List Char := (ds ++ List.replicate 9 '0').take 9

/-- The nanoseconds of a fraction that may be left out. -/
def fractionNanos? : Option (List Char) → Option Int
  | none => some 0
  | some ds => int64? (nineDigits ds)

theorem fractionNanos?_nil : fractionNanos? (some []) = some 0 := by decide

theorem secondsPart?_concat {value : List Char} (seconds : Int) (whole fraction : List Char)
    (h : (splitOnce '.' value).getD (value, []) = (whole, fraction)) :
    secondsPart? seconds (value ++ ['S']) =
      (addUnits? seconds whole 1).bind fun r => (fractionNanos? (some fraction)).map (r, ·) := by
  have he : (value ++ ['S']).isEmpty = false := by simp
  simp only [secondsPart?, he, Bool.false_eq_true, if_false, List.getLast?_concat, ne_eq, not_true,
    List.dropLast_concat, h]
  cases fraction with
  | nil => rfl
  | cons c fraction =>
    cases addUnits? seconds whole 1 with
    | none => rfl
    | some r => exact Option.map_eq_bind.symm

theorem secondsPart?_eq_some_iff {seconds r n : Int} {cs : List Char} :
    secondsPart? seconds cs = some (r, n) ↔
      ∃ part, cs = secondsChars part ∧ addCount? seconds 1 (part.map (·.1)) = some r ∧
        fractionNanos? (part.bind (·.2)) = some n := by
  constructor
  · intro h
    by_cases he : cs = []
    · subst he
      cases h
      exact ⟨none, rfl, rfl, rfl⟩
    · obtain ⟨value, rfl⟩ : ∃ value, cs = value ++ ['S'] := by
        rw [secondsPart?, if_neg (by simpa using he)] at h
        exact List.getLast?_eq_some_iff.mp (not_not.mp (Option.ite_none_left_eq_some.mp h).1)
      cases hs : splitOnce '.' value with
      | none =>
        rw [secondsPart?_concat seconds value [] (by rw [hs]; rfl), fractionNanos?_nil] at h
        obtain ⟨r', hr, ⟨⟩⟩ := Option.bind_eq_some_iff.mp h
        exact ⟨some (value, none), rfl, hr, rfl⟩
      | some split =>
        obtain ⟨rfl, -⟩ := splitOnce_eq_some_iff.mp hs
        rw [secondsPart?_concat seconds split.1 split.2 (by rw [hs]; rfl)] at h
        obtain ⟨r', hr, h⟩ := Option.bind_eq_some_iff.mp h
        obtain ⟨n', hn, ⟨⟩⟩ := Option.map_eq_some_iff.mp h
        exact ⟨some (split.1, some split.2), rfl, hr, hn⟩
  · rintro ⟨_ | ⟨whole, fraction⟩, rfl, hr, hn⟩
    · cases hr
      cases hn
      rfl
    · have hdot : '.' ∉ whole :=
        (isSigned_of_addCount? hr whole rfl).not_mem (by decide) (by decide) (by decide)
      change addUnits? seconds whole 1 = some r at hr
      cases fraction with
      | none =>
        cases hn
        have hs := splitOnce_eq_none_iff.mpr hdot
        rw [secondsChars, secondsPart?_concat seconds whole [] (by rw [hs]; rfl), hr, fractionNanos?_nil]
        rfl
      | some fraction =>
        have hs : splitOnce '.' (whole ++ '.' :: fraction) = some (whole, fraction) :=
          splitOnce_eq_some_iff.mpr ⟨rfl, hdot⟩
        rw [secondsChars, secondsPart?_concat seconds whole fraction (by rw [hs]; rfl), hr]
        exact Option.map_eq_some_iff.mpr ⟨n, hn, rfl⟩

theorem daysPart?_eq_some_iff {cs : List Char} {r : Int} :
    daysPart? cs = some r ↔ ∃ count, cs = unitChars 'D' count ∧ addCount? 0 secondsPerDay count = some r := by
  constructor
  · intro h
    rw [daysPart?] at h
    split at h
    case isTrue he => exact ⟨none, List.isEmpty_iff.mp he, h⟩
    case isFalse =>
      split at h
      case isTrue => cases h
      case isFalse hl =>
        obtain ⟨count, rfl⟩ := List.getLast?_eq_some_iff.mp (not_not.mp hl)
        rw [List.dropLast_concat] at h
        exact ⟨some count, rfl, h⟩
  · rintro ⟨_ | count, rfl, h⟩
    · exact h
    · change addUnits? 0 count secondsPerDay = some r at h
      simpa [daysPart?, unitChars] using h

theorem splitClock?_eq_some_iff {cs days clock : List Char} :
    splitClock? cs = some (days, clock) ↔
      cs = days ++ afterT clock ∧ 'T' ∉ days ∧ (days ≠ [] ∨ clock ≠ []) := by
  rw [splitClock?, afterT]
  constructor
  · intro h
    split at h
    case h_1 => cases h
    case h_2 hc hs =>
      cases h
      have hne : clock ≠ [] := hc
      obtain ⟨rfl, hT⟩ := splitOnce_eq_some_iff.mp hs
      exact ⟨by rw [if_neg hne], hT, .inr hne⟩
    case h_3 hs =>
      obtain ⟨hne, h⟩ := Option.ite_none_left_eq_some.mp h
      cases h
      exact ⟨by simp, splitOnce_eq_none_iff.mp hs, .inl (by simpa using hne)⟩
  · rintro ⟨rfl, hT, hne⟩
    cases clock with
    | nil =>
      have hs : splitOnce 'T' days = none := splitOnce_eq_none_iff.mpr hT
      simpa [hs] using hne
    | cons c clock =>
      have hs : splitOnce 'T' (days ++ 'T' :: c :: clock) = some (days, c :: clock) :=
        splitOnce_eq_some_iff.mpr ⟨rfl, hT⟩
      simp [hs]

theorem takeMinus_eq_iff {cs rest : List Char} {negative : Bool} :
    takeMinus cs = (negative, 'P' :: rest) ↔ cs = (if negative then ['-'] else []) ++ 'P' :: rest := by
  fun_cases takeMinus cs with
  | case1 cs => cases negative <;> simp
  | case2 cs h =>
    cases negative with
    | false => simp
    | true => simpa using fun hc => h _ hc

theorem literal_eq_some_iff {c : Char} {cs rest : List Char} :
    literal c cs = some ((), rest) ↔ cs = c :: rest := by
  cases cs <;> simp [literal]

/-! ## Reading a form -/

namespace DurationForm

/-- Adds up the components of a form. -/
def parts? (f : DurationForm) : Option DurationParts := do
  let seconds ← addCount? 0 secondsPerDay f.days
  let seconds ← addCount? seconds 3600 f.hours
  let seconds ← addCount? seconds 60 f.minutes
  let seconds ← addCount? seconds 1 f.whole
  let nanos ← fractionNanos? f.fraction
  guard (seconds ≤ Duration.greatestSeconds)
  return ⟨f.negative, seconds, nanos⟩

theorem parts?_eq_some_iff {f : DurationForm} {p : DurationParts} :
    f.parts? = some p ↔
      ∃ r₀, addCount? 0 secondsPerDay f.days = some r₀ ∧ ∃ r₁, addCount? r₀ 3600 f.hours = some r₁ ∧
        ∃ r₂, addCount? r₁ 60 f.minutes = some r₂ ∧ ∃ r₃, addCount? r₂ 1 f.whole = some r₃ ∧
          ∃ n, fractionNanos? f.fraction = some n ∧ r₃ ≤ Duration.greatestSeconds ∧
            p = ⟨f.negative, r₃, n⟩ := by
  simp [parts?, Option.bind_eq_some_iff, Option.guard_eq_some', eq_comm (a := p)]

/-- The split is the one that is read: a form has a component, and no unit letter stands where it would end a
component that is left out. -/
structure Unambiguous (f : DurationForm) : Prop where
  component : f.days ≠ none ∨ f.clock ≠ []
  hours : f.hours = none → 'H' ∉ unitChars 'M' f.minutes ++ secondsChars f.seconds
  minutes : f.minutes = none → 'M' ∉ secondsChars f.seconds

theorem not_mem_days {f : DurationForm} {r : Int} (h : addCount? 0 secondsPerDay f.days = some r) :
    'T' ∉ unitChars 'D' f.days := by
  cases hd : f.days with
  | none => simp [unitChars]
  | some count =>
    have := (isSigned_of_addCount? h count hd).not_mem (c := 'T') (by decide) (by decide) (by decide)
    simpa [unitChars] using this

end DurationForm

/-- Reading splits a text into a form, and adds up its components. -/
theorem DurationParts.ofText?_eq_some_iff {s : String} {p : DurationParts} :
    ofText? s = some p ↔ ∃ f : DurationForm, f.chars = s.toList ∧ f.Unambiguous ∧ f.parts? = some p := by
  constructor
  · intro h
    simp only [ofText?, Option.bind_eq_bind, Option.bind_eq_some_iff, Prod.exists, Option.guard_eq_some'] at h
    obtain ⟨⟨⟩, cs, hP, days, clock, hclock, r₀, hdays, r₁, clock₁, hhours, r₂, clock₂, hminutes, r₃, n,
      hseconds, _, hr, hp⟩ := h
    obtain ⟨rfl, hT, hsome⟩ := splitClock?_eq_some_iff.mp hclock
    obtain ⟨dayCount, rfl, hr₀⟩ := daysPart?_eq_some_iff.mp hdays
    obtain ⟨hourCount, rfl, hH, hr₁⟩ := (takeUnit?_eq_some_iff (by decide) (by decide) (by decide)).mp hhours
    obtain ⟨minuteCount, rfl, hM, hr₂⟩ :=
      (takeUnit?_eq_some_iff (by decide) (by decide) (by decide)).mp hminutes
    obtain ⟨part, rfl, hwhole, hfraction⟩ := secondsPart?_eq_some_iff.mp hseconds
    refine ⟨⟨(takeMinus s.toList).1, dayCount, hourCount, minuteCount, part⟩, ?_, ⟨?_, hH, hM⟩, ?_⟩
    · exact (takeMinus_eq_iff.mp (Prod.ext rfl (literal_eq_some_iff.mp hP))).symm
    · rwa [ne_eq, ← unitChars_eq_nil]
    · exact DurationForm.parts?_eq_some_iff.mpr ⟨r₀, hr₀, r₁, hr₁, r₂, hr₂, r₃, hwhole, n, hfraction, hr,
        (Option.some.inj hp).symm⟩
  · rintro ⟨f, hchars, hf, hp⟩
    obtain ⟨r₀, hdays, r₁, hhours, r₂, hminutes, r₃, hwhole, n, hfraction, hr, rfl⟩ :=
      DurationForm.parts?_eq_some_iff.mp hp
    have hsign := takeMinus_eq_iff.mpr hchars.symm
    have hclock : splitClock? f.body = some (unitChars 'D' f.days, f.clock) :=
      splitClock?_eq_some_iff.mpr ⟨rfl, DurationForm.not_mem_days hdays, by
        rw [ne_eq, unitChars_eq_nil]; exact hf.component⟩
    simp only [ofText?, Option.bind_eq_bind, Option.bind_eq_some_iff, Prod.exists, Option.guard_eq_some',
      hsign]
    refine ⟨(), _, literal_eq_some_iff.mpr rfl, _, _, hclock, r₀, daysPart?_eq_some_iff.mpr ⟨_, rfl, hdays⟩,
      r₁, _, (takeUnit?_eq_some_iff (by decide) (by decide) (by decide)).mpr ⟨_, rfl, hf.hours, hhours⟩,
      r₂, _, (takeUnit?_eq_some_iff (by decide) (by decide) (by decide)).mpr ⟨_, rfl, hf.minutes, hminutes⟩,
      r₃, n, secondsPart?_eq_some_iff.mpr ⟨_, rfl, hwhole, hfraction⟩, (), hr, rfl⟩

end HybridQuery
