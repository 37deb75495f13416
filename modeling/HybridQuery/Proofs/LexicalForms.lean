import Mathlib.Data.List.TakeWhile
import HybridQuery.Item.Printed
import HybridQuery.Proofs.Blanks
import HybridQuery.Proofs.Durations.Grammar
import HybridQuery.Proofs.Temporal.Printed
import HybridQuery.Proofs.Temporal.Zones
import HybridQuery.Text.Base64

/-!
# Lexical forms are read back

Dates, times, durations and bytes have no JSON form of their own, so that they print as texts. Casting the text
of an item to its type gives the item, except for an instant with a year that needs a sign.

* `Duration.form`: the documented form as which a duration prints.
* `Base64.decode?_encode`: printed bytes are read back, group by group of four digits.
* `ZonedTime.ofText?_text`, `Duration.ofText?_text`: so are times and durations.
* `Date.noBlanks_text` and the like: what is printed has no blanks, so that it is not trimmed.
* `Item.cast_toJson`: what an item that was cast from a text prints as, and what that text is cast to.
-/

namespace HybridQuery

/-! ## The fraction of a second -/

/-- The nine digits of a fraction of a second without the zeros at their end. -/
def shortDigits (fraction : Nat) : List Char := ((paddedDigits 9 fraction).reverse.dropWhile (· = '0')).reverse

theorem exists_shortDigits_append (fraction : Nat) :
    ∃ zeros, shortDigits fraction ++ List.replicate zeros '0' = paddedDigits 9 fraction := by
  let cut := (paddedDigits 9 fraction).reverse.takeWhile (· = '0')
  have hcut : cut.reverse = List.replicate cut.length '0' :=
    List.eq_replicate_iff.mpr ⟨List.length_reverse, fun c hc => by
      simpa using List.all_eq_true.mp List.all_takeWhile c (List.mem_reverse.mp hc)⟩
  refine ⟨cut.length, ?_⟩
  rw [shortDigits, ← hcut, ← List.reverse_append, List.takeWhile_append_dropWhile, List.reverse_reverse]

theorem isNumeral_shortDigits {fraction : Nat} (hpos : fraction ≠ 0) : IsNumeral (shortDigits fraction) := by
  obtain ⟨zeros, h⟩ := exists_shortDigits_append fraction
  refine ⟨fun hnil => hpos ?_, fun c hc => ?_⟩
  · rw [← numeral_paddedDigits 9 fraction, ← h, hnil, List.nil_append, numeral_zeros]
  · exact (isNumeral_paddedDigits 9 fraction).digits c (h ▸ List.mem_append_left _ hc)

theorem numeral_shortDigits {fraction : Nat} (h : fraction < nanosPerSecond) :
    numeral (shortDigits fraction) * nanosPerSecond / 10 ^ (shortDigits fraction).length = fraction := by
  obtain ⟨zeros, happend⟩ := exists_shortDigits_append fraction
  have hlength : (shortDigits fraction).length + zeros = 9 := by
    have : (paddedDigits 9 fraction).length = 9 := length_paddedDigits (by decide) h
    rwa [← happend, List.length_append, List.length_replicate] at this
  have hvalue : numeral (shortDigits fraction) * 10 ^ zeros = fraction := by
    have := numeral_paddedDigits 9 fraction
    rwa [← happend, numeral_append, numeral_zeros, List.length_replicate, Nat.add_zero] at this
  have hnano : nanosPerSecond = 10 ^ zeros * 10 ^ (shortDigits fraction).length := by
    rw [← pow_add, Nat.add_comm, hlength]
    rfl
  rw [hnano, ← Nat.mul_assoc, hvalue, Nat.mul_div_cancel _ (by positivity)]

/-! ## Forms of durations -/

/-- The digits of a number of nanoseconds as seconds with a fraction. -/
def secondsOf (nanos : Nat) : List Char × Option (List Char) :=
  (Decimal.digits (nanos / nanosPerSecond),
    if nanos % nanosPerSecond = 0 then none else some (shortDigits (nanos % nanosPerSecond)))

theorem secondsChars_ne_nil (part : List Char × Option (List Char)) : secondsChars (some part) ≠ [] := by
  obtain ⟨whole, _ | fraction⟩ := part <;> simp [secondsChars]

theorem nanos_secondsOf (nanos : Nat) :
    (numeral (secondsOf nanos).1 : Int) * nanosPerSecond + (secondsOf nanos).2.elim (0 : Int) (fun ds =>
      ↑(numeral ds * nanosPerSecond / 10 ^ ds.length)) = nanos := by
  have hdiv := Nat.div_add_mod' nanos nanosPerSecond
  have hfraction : nanos % nanosPerSecond < nanosPerSecond := Nat.mod_lt _ (by decide)
  rw [secondsOf, numeral_digits]
  dsimp only
  split_ifs with hzero
  · rw [Option.elim_none]
    exact_mod_cast (hzero ▸ hdiv)
  · rw [Option.elim_some, numeral_shortDigits hfraction]
    exact_mod_cast hdiv

namespace Duration

/-- The form as which a duration prints. -/
def form (d : Duration) : DurationForm :=
  if d.nanos = 0 then ⟨false, some ['0'], none, none, none⟩
  else ⟨d.nanos < 0, none, none, none, some (secondsOf d.nanos.natAbs)⟩

theorem chars_form (d : Duration) : d.form.chars = d.text.toList := by
  rw [form, text, String.toList_ofList]
  by_cases hzero : d.nanos = 0
  · simp [hzero, DurationForm.chars, DurationForm.body, DurationForm.clock, unitChars, secondsChars, afterT,
      Decimal.signed]
  · have habs : d.nanos.natAbs ≠ 0 := by omega
    rw [if_neg hzero, if_neg habs]
    by_cases hfraction : d.nanos.natAbs % nanosPerSecond = 0 <;> by_cases hneg : d.nanos < 0 <;>
      simp [hfraction, hneg, DurationForm.chars, DurationForm.body, DurationForm.clock, unitChars, secondsOf,
        secondsChars, afterT, Decimal.signed, shortDigits]

theorem documented_form (d : Duration) : d.form.Documented := by
  by_cases hzero : d.nanos = 0
  · rw [form, if_pos hzero]
    exact ⟨by decide, by decide, by decide, by decide, by decide, .inl (by simp)⟩
  · rw [form, if_neg hzero]
    refine ⟨by rintro _ ⟨⟩, by rintro _ ⟨⟩, by rintro _ ⟨⟩, ?_, fun ds hds => ?_, .inr (secondsChars_ne_nil _)⟩
    · rintro _ ⟨⟩
      exact isNumeral_digits _
    · obtain ⟨hfraction, ⟨⟩⟩ := Option.ite_none_left_eq_some.mp (Option.mem_def.mp hds)
      exact isNumeral_shortDigits hfraction

theorem exact_form (d : Duration) : d.form.exact = |d.nanos| := by
  by_cases hzero : d.nanos = 0
  · rw [form, if_pos hzero, hzero]
    decide
  · rw [form, if_neg hzero, Int.abs_eq_natAbs, ← nanos_secondsOf d.nanos.natAbs]
    simp only [DurationForm.exact, DurationForm.nanos, DurationForm.whole, DurationForm.fraction, Option.map_some,
      Option.elim_some, Option.elim_none, Option.bind_some, zero_mul, zero_add]

theorem signed_form (d : Duration) : d.form.signed |d.nanos| = d.nanos := by
  rw [form]
  split_ifs with hzero
  · simp [DurationForm.signed, hzero]
  · rw [DurationForm.signed]
    split_ifs with hneg
    · rw [abs_of_neg (by simpa using hneg), neg_neg]
    · exact abs_of_nonneg (by simpa using hneg)

/-- A printed duration is read back. -/
theorem ofText?_text {d : Duration} (h : |d.nanos| ≤ greatestNanos) : ofText? d.text = some d := by
  rw [ofText?_of_documented d.documented_form d.chars_form (d.exact_form.trans_le h), exact_form, signed_form]

end Duration

/-! ## Bytes -/

namespace Base64

/-- Every digit is read as its value, and is neither padding nor a blank. -/
theorem digitChar_table : ∀ n : Fin 64,
    digitValue? (digitChar n) = some n.val ∧ digitChar n ≠ '=' ∧ Text.isBlank (digitChar n) = false := by
  decide +kernel

variable {n : Nat}

theorem digitValue?_digitChar (h : n < 64) : digitValue? (digitChar n) = some n := (digitChar_table ⟨n, h⟩).1

theorem digitChar_ne (h : n < 64) : digitChar n ≠ '=' := (digitChar_table ⟨n, h⟩).2.1

theorem isBlank_digitChar (h : n < 64) : Text.isBlank (digitChar n) = false := (digitChar_table ⟨n, h⟩).2.2

theorem toUInt8_eq {a : UInt8} (h : n = a.toNat) : n.toUInt8 = a := by
  rw [h]
  exact UInt8.ofNat_toNat

theorem decodeChars?_encodeChars (bytes : List UInt8) : decodeChars? (encodeChars bytes) = some bytes := by
  fun_induction encodeChars bytes with
  | case1 => rfl
  | case2 a n =>
    have ha := a.toNat_lt
    have hvalue : n / 64 * 64 + n % 64 = n := by omega
    have hpadding : n % 16 = 0 := by omega
    rw [decodeChars?, digitValue?_digitChar (by omega), digitValue?_digitChar (by omega)]
    simp [guard, hvalue, hpadding, toUInt8_eq (show n / 16 = a.toNat by omega)]
  | case3 a b n =>
    have ha := a.toNat_lt
    have hb := b.toNat_lt
    have hvalue : (n / 4096 * 64 + n / 64 % 64) * 64 + n % 64 = n := by omega
    have hpadding : n % 4 = 0 := by omega
    rw [decodeChars?, digitValue?_digitChar (by omega), digitValue?_digitChar (by omega),
      digitValue?_digitChar (by omega)]
    · simp [guard, hvalue, hpadding, toUInt8_eq (show n / 1024 = a.toNat by omega),
        toUInt8_eq (show n / 4 % 256 = b.toNat by omega)]
    · exact fun h => digitChar_ne (by omega) h
  | case4 a b c rest n ih =>
    have ha := a.toNat_lt
    have hb := b.toNat_lt
    have hc := c.toNat_lt
    have hvalue : ((n / 262144 * 64 + n / 4096 % 64) * 64 + n / 64 % 64) * 64 + n % 64 = n := by omega
    rw [decodeChars?, digitValue?_digitChar (by omega), digitValue?_digitChar (by omega),
      digitValue?_digitChar (by omega), digitValue?_digitChar (by omega), ih]
    · simp [hvalue, toUInt8_eq (show n / 65536 = a.toNat by omega),
        toUInt8_eq (show n / 256 % 256 = b.toNat by omega), toUInt8_eq (show n % 256 = c.toNat by omega)]
    · exact fun h => absurd h (digitChar_ne (by omega))
    · exact fun h => absurd h (digitChar_ne (by omega))

/-- Printed bytes are read back. -/
theorem decode?_encode (bytes : List UInt8) : decode? (encode bytes) = some bytes := by
  rw [decode?, encode, String.toList_ofList, decodeChars?_encodeChars]

end Base64

/-! ## Texts without blanks -/

theorem IsNumeral.noBlanks {ds : List Char} (h : IsNumeral ds) : NoBlanks ds :=
  fun c hc => isBlank_of_isDigit (h.digits c hc)

@[simp] theorem noBlanks_paddedDigits (width n : Nat) : NoBlanks (paddedDigits width n) :=
  (isNumeral_paddedDigits width n).noBlanks

@[simp] theorem Date.noBlanks_chars (d : Date) : NoBlanks d.chars := by
  rw [chars_eq, yearChars]
  split_ifs <;> simp [Text.isBlank]

@[simp] theorem ClockTime.noBlanks_chars (t : ClockTime) : NoBlanks t.chars := by
  rw [chars, fractionChars]
  split_ifs <;> simp [Text.isBlank]

@[simp] theorem noBlanks_offsetChars (offset : Int) : NoBlanks (offsetChars offset) := by
  rw [offsetChars]
  split_ifs <;> simp [Text.isBlank]

theorem Date.noBlanks_text (d : Date) : NoBlanks d.text.toList := by simp [text]

theorem DateTime.noBlanks_text (t : DateTime) : NoBlanks t.text.toList := by simp [text, Text.isBlank]

theorem ZonedTime.noBlanks_text (t : ZonedTime) : NoBlanks t.text.toList := by
  obtain ⟨clock, _ | offset⟩ := t <;> simp [text]

theorem Duration.noBlanks_text (d : Duration) : NoBlanks d.text.toList := by
  intro c hc
  rw [← d.chars_form] at hc
  obtain ⟨-, rfl⟩ | rfl | hc := DurationForm.mem_chars.mp hc
  · rfl
  · rfl
  · obtain hdigit | hletter | ⟨rfl, -⟩ := d.documented_form.of_mem_body hc
    · exact isBlank_of_isDigit hdigit
    · simp only [List.mem_cons, List.not_mem_nil, or_false] at hletter
      obtain rfl | rfl | rfl | rfl | rfl := hletter <;> rfl
    · rfl

theorem Base64.noBlanks_encodeChars (bytes : List UInt8) : NoBlanks (encodeChars bytes) := by
  have hpadding : Text.isBlank '=' = false := rfl
  have hmod (n : Nat) : Text.isBlank (digitChar (n % 64)) = false := isBlank_digitChar (Nat.mod_lt n (by decide))
  fun_induction encodeChars bytes with
  | case1 => simp
  | case2 a n =>
    have ha := a.toNat_lt
    simp [isBlank_digitChar (show n / 64 < 64 by omega), hmod, hpadding]
  | case3 a b n =>
    have ha := a.toNat_lt
    have hb := b.toNat_lt
    simp [isBlank_digitChar (show n / 4096 < 64 by omega), hmod, hpadding]
  | case4 a b c rest n ih =>
    have ha := a.toNat_lt
    have hb := b.toNat_lt
    have hc := c.toNat_lt
    simp [isBlank_digitChar (show n / 262144 < 64 by omega), hmod, ih]

theorem Base64.noBlanks_encode (bytes : List UInt8) : NoBlanks (encode bytes).toList := by
  rw [encode, String.toList_ofList]
  exact noBlanks_encodeChars bytes

/-! ## Dates and times -/

theorem Date.ofText?_text {s : String} {d : Date} (h : ofText? s = some d) : ofText? d.text = some d := by
  have hvalid := isValid_of_dateField (PrefixReader.whole?_eq_some_iff.mp h)
  rw [ofText?, text, String.toList_ofList]
  exact PrefixReader.whole?_eq_some_iff.mpr (by simpa using dateField_chars hvalid [])

/-- The zone as which an offset prints. -/
def offsetZone (offset : Int) : ZoneForm := .offset (offset < 0) (hoursOf offset) (minutesOf offset)

theorem chars_offsetZone {offset : Int} (h : offset % 60 = 0) :
    (offsetZone offset).chars = offsetChars offset := by
  simp [offsetZone, ZoneForm.chars, offsetChars_eq h]

theorem documented_offsetZone {offset : Int} (hminutes : offset % 60 = 0) (hday : |offset| < secondsPerDay) :
    (offsetZone offset).Documented ∧ (offsetZone offset).exact = some offset := by
  have hsecond : secondsPerDay = 86400 := rfl
  have hexact : (offsetZone offset).exact = some offset := by
    simp only [offsetZone, ZoneForm.exact, ZoneForm.seconds, hoursOf, minutesOf, numeral_paddedDigits,
      decide_eq_true_eq, Option.some_inj]
    split <;> omega
  have htwo {n : Nat} (hn : n < 10 ^ 2) : IsNumeral (paddedDigits 2 n) ∧ (paddedDigits 2 n).length = 2 :=
    ⟨isNumeral_paddedDigits 2 n, length_paddedDigits (by decide) hn⟩
  rw [abs_lt, hsecond] at hday
  refine ⟨⟨⟨htwo (by omega), htwo (by omega)⟩, fun n hn => ?_⟩, hexact⟩
  obtain rfl := Option.some.inj (hexact.symm.trans hn)
  rwa [abs_lt, hsecond]

/-- The offset of a zone is whole minutes, and less than a day. -/
theorem ZoneForm.Tolerated.bounds {form : ZoneForm} (h : form.Tolerated) {offset : Int}
    (hoffset : form.read = some offset) : offset % 60 = 0 ∧ |offset| < secondsPerDay := by
  cases form with
  | absent => cases hoffset
  | utc =>
    cases hoffset
    decide
  | offset negative hours minutes =>
    refine ⟨?_, h.2 offset hoffset⟩
    rw [← Option.some.inj hoffset]
    split <;> omega

/-- A printed time is read back. -/
theorem ZonedTime.ofText?_text {s : String} {t : ZonedTime} (h : ofText? s = some t) :
    ofText? t.text = some t := by
  obtain ⟨clock, form, hform, -, hclock, hoffset⟩ := ofText?_eq_some_iff.mp h
  have hvalid := ClockTime.isValid_of_clockField (PrefixReader.whole?_eq_some_iff.mp hclock)
  have hchars : clockField (t.clock.chars ++ []) = some (t.clock, []) :=
    clockField_chars hvalid (by simp [NoDigit]) (by simp)
  rw [List.append_nil] at hchars
  have hread := PrefixReader.whole?_eq_some_iff.mpr hchars
  obtain ⟨time, _ | offset⟩ := t
  · exact ofText?_eq_some_iff.mpr ⟨time.chars, .absent, trivial, by simp [text, ZoneForm.chars], hread, rfl⟩
  · obtain ⟨hminutes, hday⟩ := hform.bounds hoffset.symm
    obtain ⟨hdoc, hexact⟩ := documented_offsetZone hminutes hday
    exact ofText?_eq_some_iff.mpr ⟨time.chars, offsetZone offset, hdoc.tolerated,
      by simp [text, chars_offsetZone hminutes], hread, by rw [← hdoc.exact_eq, hexact]⟩

theorem Duration.abs_le_of_ofText? {s : String} {d : Duration} (h : ofText? s = some d) :
    |d.nanos| ≤ greatestNanos := by
  obtain ⟨f, -, -, hrange, rfl⟩ := tolerated_of_ofText? h
  dsimp only [DurationForm.signed]
  split
  · rwa [abs_neg]
  · exact hrange

/-! ## Items -/

namespace Item

theorem cast_eq_ok_iff {text : String} {type : ItemType} {item : Item} :
    cast text type = .ok item ↔ ofText? type (Text.trim text) = some item := by
  rw [cast]
  cases ofText? type (Text.trim text) <;> simp

theorem cast_of_noBlanks {text : String} (h : NoBlanks text.toList) (type : ItemType) :
    cast text type = (ofText? type text).elim (.error (.cast text type.name)) .ok := by
  rw [cast, Text.trim_eq_self h]
  cases ofText? type text <;> rfl

/-- Whether an item is not an instant whose year needs a sign. -/
def hasPlainYear : Item → Bool
  | .dateTime t => t.hasPlainYear
  | _ => true

/-- **Lexical forms are read back.** An item that was cast from a text to a type without a JSON form prints as a
text. Casting this to the type gives the item, unless it is an instant at whose offset the year is negative or
has more than four digits. Then nothing is read, although it was read from a text without an offset. -/
theorem cast_toJson {text : String} {type : ItemType} {item : Item} (htype : type.isLexical = true)
    (h : cast text type = .ok item) :
    ∃ printed, item.toJson = .string printed ∧
      cast printed type = if item.hasPlainYear then .ok item else .error (.cast printed type.name) := by
  have hread := cast_eq_ok_iff.mp h
  cases type <;> try cases htype
  all_goals simp only [ofText?, Option.map_eq_some_iff] at hread
  case date =>
    obtain ⟨d, hd, rfl⟩ := hread
    refine ⟨d.text, rfl, ?_⟩
    rw [cast_of_noBlanks d.noBlanks_text, ofText?, Date.ofText?_text hd]
    rfl
  case dateTime =>
    obtain ⟨t, ht, rfl⟩ := hread
    refine ⟨t.text, rfl, ?_⟩
    rw [cast_of_noBlanks t.noBlanks_text, ofText?, DateTime.ofText?_text ht, hasPlainYear]
    split <;> rfl
  case time =>
    obtain ⟨t, ht, rfl⟩ := hread
    refine ⟨t.text, rfl, ?_⟩
    rw [cast_of_noBlanks t.noBlanks_text, ofText?, ZonedTime.ofText?_text ht]
    rfl
  case duration =>
    obtain ⟨d, hd, rfl⟩ := hread
    refine ⟨d.text, rfl, ?_⟩
    rw [cast_of_noBlanks d.noBlanks_text, ofText?, Duration.ofText?_text (Duration.abs_le_of_ofText? hd)]
    rfl
  case base64Binary =>
    obtain ⟨bytes, -, rfl⟩ := hread
    refine ⟨Base64.encode bytes, rfl, ?_⟩
    rw [cast_of_noBlanks (Base64.noBlanks_encode bytes), ofText?, Base64.decode?_encode]
    rfl

/-- A leap second, with hours and minutes of an offset that have no even length. -/
theorem cast_toJson_time :
    ∃ printed, (time ⟨⟨86399, 1500000000⟩, some (-1800)⟩).toJson = .string printed ∧
      cast printed .time = .ok (time ⟨⟨86399, 1500000000⟩, some (-1800)⟩) := by
  have h : cast "23:59:60.5+-1:30" .time = .ok (time ⟨⟨86399, 1500000000⟩, some (-1800)⟩) :=
    cast_time_eq_ok_iff.mpr ⟨_, by decide +kernel, rfl⟩
  exact cast_toJson rfl h

/-- An instant of the year 12024 is read without an offset, and prints with one. -/
theorem cast_toJson_long_year :
    ∃ t, cast "+12024-01-01T10:00:00" .dateTime = .ok (dateTime t) ∧
      (dateTime t).toJson = .string "+12024-01-01T10:00:00+00:00" ∧
      cast "+12024-01-01T10:00:00+00:00" .dateTime =
        .error (.cast "+12024-01-01T10:00:00+00:00" ItemType.dateTime.name) := by
  have hread : DateTime.ofText? (Text.trim "+12024-01-01T10:00:00") = some ⟨3672148, ⟨36000, 0⟩, 0⟩ := by
    decide +kernel
  have htrim : Text.trim "+12024-01-01T10:00:00+00:00" = "+12024-01-01T10:00:00+00:00" := by decide +kernel
  have hnone : DateTime.ofText? "+12024-01-01T10:00:00+00:00" = none := by decide +kernel
  refine ⟨_, cast_eq_ok_iff.mpr (by rw [ofText?, hread]; rfl), congrArg Json.string (by decide +kernel), ?_⟩
  rw [cast, htrim, ofText?, hnone]
  rfl

end Item
end HybridQuery
