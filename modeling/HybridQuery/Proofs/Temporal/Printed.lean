import HybridQuery.Proofs.Temporal.Calendar
import HybridQuery.Proofs.Temporal.Fields

/-!
# Reading what is printed

Every printed field is read as the value that it was printed from, and what follows it is left. A date is read
whatever its year. An instant that is read shows, at its offset, the date and the time of day that its text says;
printed, it is read back if and only if the year has four digits and no sign: the strict form takes no others, and
the form that does takes no offset.

* `digitField_paddedDigits`, `shortField_paddedDigits`, `optionalFraction_fractionChars`: fields of digits.
* `dateField_chars`, `clockField_chars`, `offsetField_offsetChars`: dates, times of day and offsets.
* `DateTime.exists_madeOf`: what every instant that is read is made of.
* `DateTime.ofText?_text`: what is read of a printed instant.
-/

namespace HybridQuery

/-! ## Digits -/

theorem isNumeral_digits (n : Nat) : IsNumeral (Decimal.digits n) where
  nonempty := List.length_pos_iff.mp Nat.length_toDigits_pos
  digits _ hc := Nat.isDigit_of_mem_toDigits (by decide) (by decide) hc

theorem numeral_digits (n : Nat) : numeral (Decimal.digits n) = n := by
  have hfold := foldl_digits (Decimal.digits n) 0
  rw [Nat.zero_mul, Nat.zero_add] at hfold
  have hof := Nat.ofDigitChars_toDigits (b := 10) (n := n) (by decide) (by decide)
  rw [Nat.ofDigitChars_eq_foldl] at hof
  rw [← hfold, Decimal.digits]
  simpa only [Nat.mul_comm 10] using hof

theorem isNumeral_paddedDigits (width n : Nat) : IsNumeral (paddedDigits width n) where
  nonempty := by simp [paddedDigits, (isNumeral_digits n).nonempty]
  digits c hc := by
    rcases List.mem_append.mp hc with hc | hc
    · rw [List.eq_of_mem_replicate hc]
      rfl
    · exact (isNumeral_digits n).digits c hc

theorem numeral_paddedDigits (width n : Nat) : numeral (paddedDigits width n) = n := by
  rw [paddedDigits, numeral_append, numeral_zeros, numeral_digits, Nat.zero_mul, Nat.zero_add]

theorem length_paddedDigits {width n : Nat} (hpos : 0 < width) (h : n < 10 ^ width) :
    (paddedDigits width n).length = width := by
  have hle : (Decimal.digits n).length ≤ width := (Nat.length_toDigits_le_iff (by decide) hpos).mpr h
  rw [paddedDigits, List.length_append, List.length_replicate]
  omega

theorem isBlank_of_isDigit {c : Char} (h : c.isDigit = true) : Text.isBlank c = false := by
  simp only [Char.isDigit, Bool.and_eq_true, decide_eq_true_eq] at h
  have hlow : 48 ≤ c.toNat := h.1
  have hhigh : c.toNat ≤ 57 := h.2
  simp only [Text.isBlank, Bool.or_eq_false_iff, Bool.and_eq_false_iff, decide_eq_false_iff_not,
    beq_eq_false_iff_ne]
  omega

/-! ## Fields -/

section Fields
variable {rest : List Char}

theorem digitField_paddedDigits {least width n : Nat} (hleast : least ≤ width) (hpos : 0 < width)
    (h : n < 10 ^ width) : digitField least width (paddedDigits width n ++ rest) = some (n, rest) := by
  have hlength := length_paddedDigits hpos h
  exact digitField_eq_some_iff.mpr ⟨_, rfl, isNumeral_paddedDigits width n, by omega, by omega, .inl hlength,
    (numeral_paddedDigits width n).symm⟩

theorem twoDigits_paddedDigits {n : Nat} (h : n < 100) :
    digitField 2 2 (paddedDigits 2 n ++ rest) = some (n, rest) :=
  digitField_paddedDigits le_rfl (by decide) h

theorem trimStart_of_isNumeral {ds : List Char} (h : IsNumeral ds) : Text.trimStart (ds ++ rest) = ds ++ rest := by
  obtain ⟨c, ds, rfl⟩ := List.exists_cons_of_ne_nil h.nonempty
  exact List.dropWhile_cons_of_neg (by simp [isBlank_of_isDigit (h.digits c (by simp))])

theorem shortField_paddedDigits {n : Nat} (h : n < 100) :
    shortField (paddedDigits 2 n ++ rest) = some (n, rest) := by
  rw [shortField, trimStart_of_isNumeral (isNumeral_paddedDigits 2 n)]
  exact digitField_paddedDigits (by decide) (by decide) h

theorem fractionField_paddedDigits {width n : Nat} (hpos : 0 < width) (hnine : width ≤ 9) (h : n < 10 ^ width)
    (hrest : NoDigit rest) :
    fractionField (paddedDigits width n ++ rest) = some (n * Power.ten (9 - width), rest) := by
  have hlength := length_paddedDigits hpos h
  have hn := isNumeral_paddedDigits width n
  rw [fractionField, takeWhile_append_of_noDigit hn.digits hrest, List.take_of_length_le (by omega), hlength]
  have hvalue : Decimal.digitsValue? (paddedDigits width n) = some n :=
    digitsValue?_eq_some_iff.mpr ⟨hn, (numeral_paddedDigits width n).symm⟩
  simp [hvalue, hlength]

theorem optionalFraction_fractionChars {nano : Nat} (h : nano < nanosPerSecond) (hdigit : NoDigit rest)
    (hpoint : '.' ∉ rest.head?) : optionalFraction (fractionChars nano ++ rest) = some (nano, rest) := by
  have hnano : nanosPerSecond = 1000000000 := rfl
  have hread {width n : Nat} (hpos : 0 < width) (hnine : width ≤ 9) (hn : n < 10 ^ width) :
      optionalFraction ('.' :: paddedDigits width n ++ rest) = some (n * Power.ten (9 - width), rest) :=
    fractionField_paddedDigits hpos hnine hn hdigit
  rw [fractionChars]
  split_ifs with hzero hmilli hmicro
  · rw [hzero, List.nil_append]
    cases rest with
    | nil => rfl
    | cons c rest =>
      have hc : c ≠ '.' := by simpa using hpoint
      simp [optionalFraction, hc]
  · have hten : Power.ten (9 - 3) = 1000000 := rfl
    rw [hread (by decide) (by decide) (by omega), hten, Nat.div_mul_cancel (Nat.dvd_of_mod_eq_zero hmilli)]
  · have hten : Power.ten (9 - 6) = 1000 := rfl
    rw [hread (by decide) (by decide) (by omega), hten, Nat.div_mul_cancel (Nat.dvd_of_mod_eq_zero hmicro)]
  · have hten : Power.ten (9 - 9) = 1 := rfl
    rw [hread (by decide) (by decide) (by omega), hten, Nat.mul_one]

end Fields

/-! ## Dates -/

/-- The characters of a year. -/
def yearChars (year : Int) : List Char :=
  if year < 0 then '-' :: paddedDigits 4 year.natAbs
  else if year > 9999 then '+' :: paddedDigits 4 year.natAbs
  else paddedDigits 4 year.natAbs

theorem Date.chars_eq (d : Date) :
    d.chars = yearChars d.year ++ '-' :: (paddedDigits 2 d.month ++ '-' :: paddedDigits 2 d.day) := by
  simp [chars, yearChars]

theorem bind_eq_some {α β : Type} {o : Option α} {f : α → Option β} {a : α} {b : β} (h : o = some a)
    (hf : f a = some b) : o >>= f = some b :=
  Option.bind_eq_some_iff.mpr ⟨a, h, hf⟩

theorem literal_cons (c : Char) (rest : List Char) : literal c (c :: rest) = some ((), rest) :=
  literal_eq_some_iff.mpr rfl

theorem yearField_yearChars (year : Int) {rest : List Char} (h : NoDigit rest) :
    yearField (yearChars year ++ rest) = some (year, rest) := by
  have hn := isNumeral_paddedDigits 4 year.natAbs
  have hhead {c : Char} {cs : List Char} (h : paddedDigits 4 year.natAbs ++ rest = c :: cs) :
      c.isDigit = true := by
    obtain ⟨d, ds, hds⟩ := List.exists_cons_of_ne_nil hn.nonempty
    rw [hds] at h
    cases h
    exact hn.digits c (hds ▸ List.mem_cons_self)
  have hsigned : digitField 1 (paddedDigits 4 year.natAbs ++ rest).length (paddedDigits 4 year.natAbs ++ rest) =
      some (year.natAbs, rest) :=
    digitField_eq_some_iff.mpr ⟨_, rfl, hn, List.length_pos_iff.mpr hn.nonempty, by simp, .inr h,
      (numeral_paddedDigits 4 _).symm⟩
  rw [yearChars]
  split_ifs with hneg hlarge
  · have htrim (cs : List Char) : Text.trimStart ('-' :: cs) = '-' :: cs := rfl
    have habs : -(year.natAbs : Int) = year := by omega
    simp only [yearField, List.cons_append, htrim, hsigned, Option.map_some, habs]
  · have htrim (cs : List Char) : Text.trimStart ('+' :: cs) = '+' :: cs := rfl
    have habs : (year.natAbs : Int) = year := by omega
    simp only [yearField, List.cons_append, htrim, hsigned, Option.map_some, habs]
  · have habs : (year.natAbs : Int) = year := by omega
    rw [yearField, trimStart_of_isNumeral hn]
    split
    case h_1 hcs => exact absurd (hhead hcs) (by decide)
    case h_2 hcs => exact absurd (hhead hcs) (by decide)
    case h_3 =>
      have hfour : digitField 1 4 (paddedDigits 4 year.natAbs ++ rest) = some (year.natAbs, rest) :=
        digitField_paddedDigits (by decide) (by decide) (by omega)
      simp only [hfour, Option.map_some, habs]

theorem Date.IsValid.lt_hundred {d : Date} (h : d.IsValid) : d.month < 100 ∧ d.day < 100 := by
  have hdays : daysInMonth d.year d.month ≤ 31 := by
    simp only [daysInMonth]
    split_ifs <;> decide
  have hmonth := h.month.2
  have hday := h.day.2
  omega

theorem dateField_chars {d : Date} (h : d.IsValid) (rest : List Char) :
    dateField (d.chars ++ rest) = some (d, rest) := by
  obtain ⟨hmonth, hday⟩ := h.lt_hundred
  have hdate : Date.make? d.year d.month d.day = some d := Date.make?_eq_some_iff.mpr ⟨h, rfl⟩
  have hyear (cs : List Char) : yearField (yearChars d.year ++ '-' :: cs) = some (d.year, '-' :: cs) :=
    yearField_yearChars d.year (by simp [NoDigit])
  simp [dateField, d.chars_eq, hyear, literal_cons, shortField_paddedDigits hmonth, shortField_paddedDigits hday,
    hdate]

/-! ## Times of day -/

/-- A time of day: a leap second is the last of its minute. -/
structure ClockTime.IsValid (t : ClockTime) : Prop where
  second : t.second < 86400
  nano : t.nano < 2 * nanosPerSecond
  leap : nanosPerSecond ≤ t.nano → t.second % 60 = 59

namespace ClockTime

theorem isValid_of_make? {hour minute second nano : Nat} {t : ClockTime}
    (h : make? hour minute second nano = some t) : t.IsValid := by
  have hnano : nanosPerSecond = 1000000000 := rfl
  rw [make?] at h
  obtain ⟨⟨hh, hm, hs, hn⟩, h⟩ := Option.ite_none_right_eq_some.mp h
  split at h <;> cases h <;> constructor <;> dsimp only <;> omega

theorem IsValid.bounds {t : ClockTime} (h : t.IsValid) :
    t.hour < 24 ∧ t.minute < 60 ∧ t.writtenSecond ≤ 60 ∧ t.writtenNano < nanosPerSecond := by
  have hnano : nanosPerSecond = 1000000000 := rfl
  obtain ⟨hsecond, hless, hleap⟩ := h
  rw [hour, minute, writtenSecond, writtenNano, hnano] at *
  omega

theorem IsValid.make?_eq {t : ClockTime} (h : t.IsValid) :
    make? t.hour t.minute t.writtenSecond t.writtenNano = some t := by
  have hnano : nanosPerSecond = 1000000000 := rfl
  have hbounds := h.bounds
  obtain ⟨second, nano⟩ := t
  obtain ⟨hsecond, hless, hleap⟩ := h
  rw [make?, if_pos hbounds]
  simp only [hour, minute, writtenSecond, writtenNano, hnano] at *
  split <;> simp only [Option.some_inj, mk.injEq] <;> omega

end ClockTime

theorem clockField_chars {t : ClockTime} (h : t.IsValid) {rest : List Char} (hdigit : NoDigit rest)
    (hpoint : '.' ∉ rest.head?) : clockField (t.chars ++ rest) = some (t, rest) := by
  obtain ⟨hhour, hminute, hsecond, hnano⟩ := h.bounds
  have hread {n : Nat} (hn : n ≤ 60) (rest : List Char) :
      shortField (paddedDigits 2 n ++ rest) = some (n, rest) := shortField_paddedDigits (by omega)
  simp [clockField, ClockTime.chars, literal_cons, hread (show t.hour ≤ 60 by omega),
    hread (show t.minute ≤ 60 by omega), hread hsecond, optionalFraction_fractionChars hnano hdigit hpoint,
    h.make?_eq]

/-! ## Offsets -/

theorem guard_true {p : Prop} [Decidable p] (h : p) : (guard p : Option Unit) = some () := if_pos h

/-- The hours and minutes of an offset. -/
def hoursOf (offset : Int) : List Char := paddedDigits 2 (offset.natAbs / 3600)

/-- The minutes of the hour of an offset. -/
def minutesOf (offset : Int) : List Char := paddedDigits 2 (offset.natAbs / 60 % 60)

theorem offsetChars_eq {offset : Int} (h : offset % 60 = 0) :
    offsetChars offset = (if offset < 0 then '-' else '+') :: (hoursOf offset ++ ':' :: minutesOf offset) := by
  have hseconds : offset.natAbs % 60 = 0 := by omega
  simp [offsetChars, hoursOf, minutesOf, hseconds]

theorem offsetField_sign {n : Nat} (hminutes : n % 60 = 0) (hday : n ≤ greatestOffset) {sign : Char}
    (hsign : sign = '+' ∨ sign = '-') (rest : List Char) :
    offsetField (sign :: (paddedDigits 2 (n / 3600) ++ ':' :: (paddedDigits 2 (n / 60 % 60) ++ rest))) =
      some (if sign = '+' then (n : Int) else -n, rest) := by
  have hgreatest : greatestOffset = 86340 := rfl
  have hhours : n / 3600 < 100 := by omega
  have hless : n / 60 % 60 < 60 := Nat.mod_lt _ (by decide)
  have hvalue : ((n / 3600 : Nat) : Int) * 3600 + ((n / 60 % 60 : Nat) : Int) * 60 = n := by omega
  rw [offsetField]
  · rw [guard_true (hsign.imp_right .inl)]
    simp only [twoDigits_paddedDigits hhours, twoDigits_paddedDigits (hless.trans (by decide)), literal_cons,
      hvalue, guard_true hless, guard_true hday, Option.pure_def, Option.bind_eq_bind, Option.bind_some]
  all_goals
    rintro rfl
    simp at hsign

theorem offsetField_offsetChars {offset : Int} (hminutes : offset % 60 = 0) (hday : |offset| ≤ greatestOffset)
    (rest : List Char) : offsetField (offsetChars offset ++ rest) = some (offset, rest) := by
  have habs : (offset.natAbs : Int) = |offset| := Int.natCast_natAbs offset
  have hfield {sign : Char} (hsign : sign = '+' ∨ sign = '-') :=
    offsetField_sign (n := offset.natAbs) (by omega) (by rwa [habs]) hsign rest
  have hvalue : (if (if offset < 0 then '-' else '+') = '+' then (offset.natAbs : Int) else -offset.natAbs) =
      offset := by
    by_cases hneg : offset < 0
    · rw [if_pos hneg, if_neg (by decide)]
      omega
    · rw [if_neg hneg, if_pos rfl]
      omega
  rw [offsetChars_eq hminutes, List.cons_append, List.append_assoc, List.cons_append, hoursOf, minutesOf,
    hfield (by split <;> simp), hvalue]

theorem noDigit_offsetChars {offset : Int} (h : offset % 60 = 0) :
    NoDigit (offsetChars offset) ∧ '.' ∉ (offsetChars offset).head? := by
  rw [offsetChars_eq h]
  split <;> simp [NoDigit]

/-! ## What is read -/

theorem ClockTime.isValid_of_clockField {t : ClockTime} {cs rest : List Char}
    (h : clockField cs = some (t, rest)) : t.IsValid := by
  simp only [clockField, Option.bind_eq_bind, Option.bind_eq_some_iff, Prod.exists] at h
  obtain ⟨_, _, -, _, _, -, _, _, -, _, _, -, _, _, -, _, _, -, _, ht, ⟨⟩⟩ := h
  exact isValid_of_make? ht

theorem Date.isValid_of_dateField {d : Date} {cs rest : List Char} (h : dateField cs = some (d, rest)) :
    d.IsValid := by
  simp only [dateField, Option.bind_eq_bind, Option.bind_eq_some_iff, Prod.exists] at h
  obtain ⟨_, _, -, _, _, -, _, _, -, _, _, -, _, _, -, _, hd, ⟨⟩⟩ := h
  exact (make?_eq_some_iff.mp hd).1

/-- An offset that is read is whole minutes, and less than a day. -/
theorem bounds_of_offsetField {offset : Int} {cs rest : List Char} (h : offsetField cs = some (offset, rest)) :
    offset % 60 = 0 ∧ |offset| ≤ greatestOffset := by
  rw [offsetField.eq_def] at h
  split at h
  case h_1 =>
    cases h
    decide
  case h_2 =>
    cases h
    decide
  case h_3 =>
    simp only [Option.bind_eq_bind, Option.bind_eq_some_iff, Prod.exists, Option.guard_eq_some'] at h
    obtain ⟨_, -, hours, _, -, _, _, -, minutes, _, -, _, hless, _, hday, h⟩ := h
    cases h
    split
    · rw [abs_of_nonneg (by omega)]
      omega
    · rw [abs_neg, abs_of_nonneg (by omega)]
      omega
  case h_4 => cases h

namespace DateTime

/-- What clocks at the offset of an instant show is what it was made from. -/
theorem shown_of_ofLocal? {d : Date} {clock : ClockTime} {offset : Int} {t : DateTime} (hd : d.IsValid)
    (hclock : clock.IsValid) (h : ofLocal? d clock offset = some t) :
    t.localDate = d ∧ t.localClock = clock ∧ t.offset = offset := by
  rw [ofLocal?] at h
  obtain ⟨-, ⟨⟩⟩ := Option.ite_none_right_eq_some.mp h
  have hsecond := hclock.second
  have hday : secondsPerDay = 86400 := rfl
  have hnumber : d.dayNumber + (clock.second - offset) / secondsPerDay +
      (((clock.second - offset) % secondsPerDay).toNat + offset) / secondsPerDay = d.dayNumber := by
    rw [hday]
    omega
  have hlocal : ((((clock.second - offset) % secondsPerDay).toNat + offset) % secondsPerDay).toNat =
      clock.second := by
    rw [hday]
    omega
  refine ⟨?_, ?_, rfl⟩
  · rw [localDate, localSecond, hnumber, Date.ofDayNumber_dayNumber hd]
  · simp only [localClock, localSecond, hlocal]

/-- What an instant is made of that is read at an offset. -/
structure MadeOf (t : DateTime) (d : Date) (clock : ClockTime) : Prop where
  date : d.IsValid
  time : clock.IsValid
  minutes : t.offset % 60 = 0
  less : |t.offset| ≤ greatestOffset
  instant : ofLocal? d clock t.offset = some t

theorem exists_madeOf_of_strictDateTime {cs rest : List Char} {t : DateTime}
    (h : strictDateTime cs = some (t, rest)) : ∃ d clock, t.MadeOf d clock := by
  -- Five fields with the marks between them, the seconds and their fraction.
  iterate 12 obtain ⟨_, -, h⟩ := Option.bind_eq_some_iff.mp h
  obtain ⟨⟨offset, _⟩, hoffset, h⟩ := Option.bind_eq_some_iff.mp h
  obtain ⟨d, hd, h⟩ := Option.bind_eq_some_iff.mp h
  obtain ⟨clock, hclock, h⟩ := Option.bind_eq_some_iff.mp h
  obtain ⟨_, ht, ⟨⟩⟩ := Option.bind_eq_some_iff.mp h
  have hvalid := (Date.make?_eq_some_iff.mp hd).1
  have hshown := shown_of_ofLocal? hvalid (ClockTime.isValid_of_make? hclock) ht
  obtain ⟨hminutes, hday⟩ := bounds_of_offsetField hoffset
  rw [← hshown.2.2] at hminutes hday ht
  exact ⟨d, clock, hvalid, ClockTime.isValid_of_make? hclock, hminutes, hday, ht⟩

theorem exists_madeOf_of_plainDateTime {cs rest : List Char} {t : DateTime}
    (h : plainDateTime cs = some (t, rest)) : ∃ d clock, t.MadeOf d clock := by
  simp only [plainDateTime, Option.bind_eq_bind, Option.bind_eq_some_iff, Prod.exists] at h
  obtain ⟨d, _, hd, _, _, -, clock, _, hclock, _, ht, ⟨⟩⟩ := h
  have hvalid := Date.isValid_of_dateField hd
  have hclock := ClockTime.isValid_of_clockField hclock
  have hzero := (shown_of_ofLocal? hvalid hclock ht).2.2
  exact ⟨d, clock, hvalid, hclock, by rw [hzero]; rfl, by rw [hzero]; decide, by rwa [hzero]⟩

/-- An instant that is read is made from a date, a time of day and an offset of whole minutes. -/
theorem exists_madeOf {s : String} {t : DateTime} (h : ofText? s = some t) : ∃ d clock, t.MadeOf d clock := by
  rw [ofText?] at h
  cases hstrict : strictDateTime.whole? s.toList with
  | none =>
    rw [hstrict] at h
    exact exists_madeOf_of_plainDateTime (PrefixReader.whole?_eq_some_iff.mp h)
  | some t' =>
    rw [hstrict] at h
    cases h
    exact exists_madeOf_of_strictDateTime (PrefixReader.whole?_eq_some_iff.mp hstrict)

variable {t : DateTime} {d : Date} {clock : ClockTime}

theorem MadeOf.shown (h : t.MadeOf d clock) : t.localDate = d ∧ t.localClock = clock :=
  ⟨(shown_of_ofLocal? h.date h.time h.instant).1, (shown_of_ofLocal? h.date h.time h.instant).2.1⟩

theorem MadeOf.chars_eq (h : t.MadeOf d clock) :
    t.text.toList = d.chars ++ 'T' :: (clock.chars ++ offsetChars t.offset) := by
  rw [text, String.toList_ofList, h.shown.1, h.shown.2]
  simp

/-! ## Reading back -/

/-- Whether the year that clocks at the offset of an instant show has four digits and no sign. -/
def hasPlainYear (t : DateTime) : Bool := 0 ≤ t.localDate.year && t.localDate.year ≤ 9999

/-- Without an offset no sign is read after the `T`, and there is one. -/
theorem MadeOf.whole?_plainDateTime (h : t.MadeOf d clock) : plainDateTime.whole? t.text.toList = none := by
  by_contra hsome
  obtain ⟨t', ht'⟩ := Option.ne_none_iff_exists'.mp hsome
  have hread := PrefixReader.whole?_eq_some_iff.mp ht'
  simp only [plainDateTime, Option.bind_eq_bind, Option.bind_eq_some_iff, Prod.exists] at hread
  obtain ⟨_, _, hdate, _, left, hmark, _, _, hclock, _, -, ⟨⟩⟩ := hread
  obtain ⟨front, hfront, hdatechars⟩ := taken_of_dateField hdate
  obtain rfl := literal_eq_some_iff.mp hmark
  have hclockchars := (taken_of_clockField hclock).of_nil
  have hleft : left = clock.chars ++ offsetChars t.offset := by
    rw [h.chars_eq] at hfront
    exact ((List.append_cons_inj_of_notMem (fun hT => absurd (hdatechars 'T' hT) (by decide))
      fun hT => absurd (hclockchars 'T' hT) (by decide)).mp hfront.symm).2.2
  have hsign : ∃ sign ∈ left, sign = '-' ∨ sign = '+' := by
    refine ⟨if t.offset < 0 then '-' else '+', ?_, by split <;> simp⟩
    rw [hleft, offsetChars_eq h.minutes]
    simp
  obtain ⟨sign, hmem, rfl | rfl⟩ := hsign <;>
    exact absurd (hclockchars _ hmem) (by decide)

/-- A year of four digits is read, and everything after it. -/
theorem MadeOf.strictDateTime_chars (h : t.MadeOf d clock) (hyear : 0 ≤ d.year ∧ d.year ≤ 9999) :
    strictDateTime t.text.toList = some (t, []) := by
  obtain ⟨hhour, hminute, hsecond, hnano⟩ := h.time.bounds
  obtain ⟨hmonth, hday⟩ := h.date.lt_hundred
  obtain ⟨hdigit, hpoint⟩ := noDigit_offsetChars h.minutes
  have hfour (rest : List Char) :
      digitField 4 4 (yearChars d.year ++ rest) = some (d.year.natAbs, rest) := by
    rw [yearChars, if_neg (by omega), if_neg (by omega)]
    exact digitField_paddedDigits le_rfl (by decide) (by omega)
  have hmark (rest : List Char) : dateTimeMark ('T' :: rest) = some ((), rest) := rfl
  have hoffset := offsetField_offsetChars h.minutes h.less []
  rw [List.append_nil] at hoffset
  have hdate : Date.make? d.year.natAbs d.month d.day = some d := by
    rw [Int.natAbs_of_nonneg hyear.1]
    exact Date.make?_eq_some_iff.mpr ⟨h.date, rfl⟩
  have hchars : t.text.toList =
      yearChars d.year ++ '-' :: (paddedDigits 2 d.month ++ '-' :: (paddedDigits 2 d.day ++ 'T' ::
        (paddedDigits 2 clock.hour ++ ':' :: (paddedDigits 2 clock.minute ++ ':' ::
          (paddedDigits 2 clock.writtenSecond ++
            (fractionChars clock.writtenNano ++ offsetChars t.offset)))))) := by
    simp [h.chars_eq, d.chars_eq, ClockTime.chars]
  rw [hchars, strictDateTime]
  -- The date and its mark, the time of day, and the offset; then the instant is made of them.
  refine bind_eq_some (hfour _) (bind_eq_some (literal_cons _ _) (bind_eq_some (twoDigits_paddedDigits hmonth)
    (bind_eq_some (literal_cons _ _) (bind_eq_some (twoDigits_paddedDigits hday) (bind_eq_some (hmark _) ?_)))))
  refine bind_eq_some (twoDigits_paddedDigits (by omega)) (bind_eq_some (literal_cons _ _)
    (bind_eq_some (twoDigits_paddedDigits (by omega)) (bind_eq_some (literal_cons _ _)
      (bind_eq_some (twoDigits_paddedDigits (by omega))
        (bind_eq_some (optionalFraction_fractionChars hnano hdigit hpoint) (bind_eq_some hoffset ?_))))))
  exact bind_eq_some hdate (bind_eq_some h.time.make?_eq (bind_eq_some h.instant rfl))

/-- A year with a sign does not begin with a digit. -/
theorem MadeOf.whole?_strictDateTime (h : t.MadeOf d clock) (hyear : d.year < 0 ∨ 9999 < d.year) :
    strictDateTime.whole? t.text.toList = none := by
  by_contra hsome
  obtain ⟨t', ht'⟩ := Option.ne_none_iff_exists'.mp hsome
  have hstrict := PrefixReader.whole?_eq_some_iff.mp ht'
  rw [strictDateTime] at hstrict
  obtain ⟨⟨year, _⟩, hread, -⟩ := Option.bind_eq_some_iff.mp hstrict
  obtain ⟨ds, hds, hn, -⟩ := digitField_eq_some_iff.mp hread
  obtain ⟨sign, cs, hsign, hcs⟩ : ∃ sign cs, sign.isDigit = false ∧ t.text.toList = sign :: cs := by
    rw [h.chars_eq, d.chars_eq, yearChars]
    split_ifs with hneg hlarge
    · exact ⟨'-', _, rfl, rfl⟩
    · exact ⟨'+', _, rfl, rfl⟩
    · omega
  obtain ⟨c, ds, rfl⟩ := List.exists_cons_of_ne_nil hn.nonempty
  rw [hcs] at hds
  obtain ⟨rfl, -⟩ := List.cons.inj hds
  exact hn.not_mem hsign (by simp)

/-- A printed instant is read back just if its year has four digits and no sign; otherwise nothing is read. -/
theorem ofText?_text {s : String} (h : ofText? s = some t) :
    ofText? t.text = if t.hasPlainYear then some t else none := by
  obtain ⟨d, clock, hmade⟩ := exists_madeOf h
  rw [ofText?, hmade.whole?_plainDateTime, hasPlainYear, hmade.shown.1]
  by_cases hyear : 0 ≤ d.year ∧ d.year ≤ 9999
  · have hstrict := PrefixReader.whole?_eq_some_iff.mpr (hmade.strictDateTime_chars hyear)
    simp [hstrict, hyear]
  · rw [hmade.whole?_strictDateTime (by omega)]
    simpa using hyear

end DateTime
end HybridQuery
