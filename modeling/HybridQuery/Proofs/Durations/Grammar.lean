import Mathlib.Algebra.Order.Group.Unbundled.Abs
import Mathlib.Data.List.Basic
import HybridQuery.Proofs.Durations.Forms

/-!
# The grammar of durations

The documented form has digits for its counts and for its fraction. What is read is more: a count may have a
sign of its own, and of a fraction only the first nine characters are looked at. In a text that has neither
signs inside nor anything but digits after a point, the two are the same.

* `DurationForm.Documented`, `DurationForm.exact`: the documented form, and its number of nanoseconds.
* `DurationForm.Tolerated`, `DurationForm.read`: the form that is read, and what is read.
* `Item.cast_duration_grammar`: which texts are cast to a duration, and to which.
-/

namespace HybridQuery

/-! ## What a form stands for -/

theorem addCount?_value {seconds unit r : Int} {count : Option (List Char)}
    (h : addCount? seconds unit count = some r) : r = seconds + count.elim 0 signedNumeral * unit := by
  cases count with
  | none =>
    cases h
    simp
  | some ds => exact (addUnits?_eq_some_iff.mp h).2

theorem addCount?_of_numeral {seconds unit : Int} {count : Option (List Char)} (hs : 0 ≤ seconds)
    (hu : 0 < unit) (hc : ∀ ds ∈ count, IsNumeral ds)
    (h : seconds + count.elim (0 : Int) (numeral ·) * unit < 2 ^ 63) :
    addCount? seconds unit count = some (seconds + count.elim (0 : Int) (numeral ·) * unit) := by
  cases count with
  | none => simp [addCount?]
  | some ds =>
    have hn := hc ds rfl
    have hle : (numeral ds : Int) ≤ numeral ds * unit := le_mul_of_one_le_right (by omega) hu
    change seconds + numeral ds * unit < 2 ^ 63 at h
    refine addUnits?_eq_some_iff.mpr ?_
    rw [hn.signedNumeral]
    refine ⟨⟨hn.isSigned, ⟨by omega, by omega⟩, ⟨by omega, by omega⟩, ⟨by omega, by omega⟩⟩, rfl⟩

theorem fractionNanos?_value {fraction : Option (List Char)} {n : Int}
    (h : fractionNanos? fraction = some n) :
    (∀ ds ∈ fraction, IsSigned (nineDigits ds)) ∧
      n = fraction.elim 0 fun ds => signedNumeral (nineDigits ds) := by
  cases fraction with
  | none =>
    cases h
    simp
  | some ds =>
    obtain ⟨hs, -, rfl⟩ := int64?_eq_some_iff.mp h
    exact ⟨by rintro _ ⟨⟩; exact hs, rfl⟩

theorem numeral_nineDigits {ds : List Char} (h : ∀ c ∈ ds, c.isDigit = true) :
    numeral (nineDigits ds) = numeral ds * nanosPerSecond / 10 ^ ds.length := by
  have hfill : numeral (ds ++ List.replicate 9 '0') = numeral ds * nanosPerSecond := by
    rw [numeral_append, numeral_zeros, List.length_replicate, Nat.add_zero]
    rfl
  have hlength : ((ds ++ List.replicate 9 '0').drop 9).length = ds.length := by simp
  -- The digits that are cut off are worth less than one unit of the last digit that stays.
  have hlt : numeral ((ds ++ List.replicate 9 '0').drop 9) < 10 ^ ds.length := by
    rw [← hlength]
    refine numeral_lt fun c hc => ?_
    rcases List.mem_append.mp (List.mem_of_mem_drop hc) with hc | hc
    · exact h c hc
    · rw [List.eq_of_mem_replicate hc]
      rfl
  rw [← hfill, ← List.take_append_drop 9 (ds ++ List.replicate 9 '0'), numeral_append, hlength,
    Nat.mul_comm, Nat.mul_add_div (by positivity), Nat.div_eq_of_lt hlt, Nat.add_zero, nineDigits]

theorem IsNumeral.nineDigits {ds : List Char} (h : IsNumeral ds) : IsNumeral (nineDigits ds) where
  nonempty := by simp [HybridQuery.nineDigits, h.nonempty]
  digits := fun c hc => by
    rcases List.mem_append.mp (List.mem_of_mem_take hc) with hc | hc
    · exact h.digits c hc
    · rw [List.eq_of_mem_replicate hc]
      rfl

theorem fractionNanos?_of_numeral {fraction : Option (List Char)} (h : ∀ ds ∈ fraction, IsNumeral ds) :
    fractionNanos? fraction =
      some (fraction.elim 0 fun ds => ↑(numeral ds * nanosPerSecond / 10 ^ ds.length)) := by
  cases fraction with
  | none => rfl
  | some ds =>
    have hn := h ds rfl
    have hlt : numeral (nineDigits ds) < 10 ^ 9 :=
      (numeral_lt hn.nineDigits.digits).trans_le (Nat.pow_le_pow_right (by decide) (by simp [nineDigits]))
    refine int64?_eq_some_iff.mpr ?_
    rw [hn.nineDigits.signedNumeral, Option.elim_some, ← numeral_nineDigits hn.digits]
    exact ⟨hn.nineDigits.isSigned, ⟨by omega, by omega⟩, rfl⟩

namespace DurationForm

/-- The documented form: digits only. -/
abbrev Documented : DurationForm → Prop := Spelled IsNumeral IsNumeral

/-- The exact number of nanoseconds of a documented form, with the fraction taken to nine digits. -/
def exact : DurationForm → Int := nanos (numeral ·) fun ds => ↑(numeral ds * nanosPerSecond / 10 ^ ds.length)

/-- The form that is read: counts may have a sign, and so may the first nine characters of a fraction, filled
up with zeros. What follows them is not looked at. -/
abbrev Tolerated : DurationForm → Prop := Spelled IsSigned fun ds => IsSigned (nineDigits ds)

/-- The number of nanoseconds that is read. -/
def read : DurationForm → Int := nanos signedNumeral fun ds => signedNumeral (nineDigits ds)

/-- A number of nanoseconds with the sign of a form. -/
def signed (f : DurationForm) (n : Int) : Int := if f.negative then -n else n

theorem tolerated_of_parts? {f : DurationForm} {p : DurationParts} (hf : f.Unambiguous)
    (h : f.parts? = some p) :
    f.Tolerated ∧ p.negative = f.negative ∧ p.seconds * nanosPerSecond + p.nanos = f.read := by
  obtain ⟨r₀, hdays, r₁, hhours, r₂, hminutes, r₃, hwhole, n, hfraction, -, rfl⟩ := parts?_eq_some_iff.mp h
  refine ⟨⟨isSigned_of_addCount? hdays, isSigned_of_addCount? hhours, isSigned_of_addCount? hminutes,
    isSigned_of_addCount? hwhole, (fractionNanos?_value hfraction).1, hf.component⟩, rfl, ?_⟩
  rw [read, nanos, ← (fractionNanos?_value hfraction).2, addCount?_value hwhole, addCount?_value hminutes,
    addCount?_value hhours, addCount?_value hdays]
  ring

end DurationForm

theorem mem_unitChars {letter c : Char} {count : Option (List Char)} :
    c ∈ unitChars letter count ↔ ∃ ds ∈ count, c ∈ ds ∨ c = letter := by
  cases count <;> simp [unitChars]

theorem isDigit_of_mem_unitChars {letter c : Char} {count : Option (List Char)}
    (h : ∀ ds ∈ count, IsNumeral ds) (hc : c ∈ unitChars letter count) : c.isDigit = true ∨ c = letter := by
  obtain ⟨ds, hds, hc | hc⟩ := mem_unitChars.mp hc
  · exact .inl ((h ds hds).digits c hc)
  · exact .inr hc

theorem mem_secondsChars {c : Char} {part : Option (List Char × Option (List Char))} :
    c ∈ secondsChars part ↔ ∃ s ∈ part, c ∈ s.1 ∨ (∃ ds ∈ s.2, c = '.' ∨ c ∈ ds) ∨ c = 'S' := by
  obtain _ | ⟨whole, _ | fraction⟩ := part <;> simp [secondsChars, or_assoc]

theorem mem_afterT {c : Char} {clock : List Char} :
    c ∈ afterT clock ↔ clock ≠ [] ∧ (c = 'T' ∨ c ∈ clock) := by
  rw [afterT]
  split <;> simp_all

namespace DurationForm

theorem Documented.of_mem_secondsChars {f : DurationForm} (h : f.Documented) {c : Char}
    (hc : c ∈ secondsChars f.seconds) : c.isDigit = true ∨ c = 'S' ∨ c = '.' ∧ f.fraction ≠ none := by
  obtain ⟨s, hs, hc | ⟨ds, hds, hc | hc⟩ | hc⟩ := mem_secondsChars.mp hc
  · exact .inl ((h.whole s.1 (Option.mem_map_of_mem _ hs)).digits c hc)
  · exact .inr (.inr ⟨hc, by simp [fraction, Option.mem_def.mp hs, Option.mem_def.mp hds]⟩)
  · exact .inl ((h.fraction ds (Option.mem_bind_iff.mpr ⟨s, hs, hds⟩)).digits c hc)
  · exact .inr (.inl hc)

theorem Documented.of_mem_body {f : DurationForm} (h : f.Documented) {c : Char} (hc : c ∈ f.body) :
    c.isDigit = true ∨ c ∈ ['D', 'T', 'H', 'M', 'S'] ∨ c = '.' ∧ f.fraction ≠ none := by
  rw [body, List.mem_append, mem_afterT, clock, List.mem_append, List.mem_append] at hc
  obtain hc | ⟨-, rfl | hc | hc | hc⟩ := hc
  · exact (isDigit_of_mem_unitChars h.days hc).imp_right fun hc => .inl (by simp [hc])
  · simp
  · exact (isDigit_of_mem_unitChars h.hours hc).imp_right fun hc => .inl (by simp [hc])
  · exact (isDigit_of_mem_unitChars h.minutes hc).imp_right fun hc => .inl (by simp [hc])
  · exact (h.of_mem_secondsChars hc).imp_right (Or.imp_left fun hc => by simp [hc])

theorem Documented.unambiguous {f : DurationForm} (h : f.Documented) : f.Unambiguous where
  component := h.component
  hours _ hc := by
    rcases List.mem_append.mp hc with hc | hc
    · simpa using isDigit_of_mem_unitChars h.minutes hc
    · simpa using h.of_mem_secondsChars hc
  minutes _ hc := by simpa using h.of_mem_secondsChars hc

end DurationForm

/-- The greatest number of nanoseconds of a duration. -/
def Duration.greatestNanos : Int := bound * nanosPerMilli

theorem Duration.ofNanos?_eq_some_iff {n : Int} {d : Duration} :
    ofNanos? n = some d ↔ |n| ≤ greatestNanos ∧ d = ⟨n⟩ := by
  rw [ofNanos?, Option.ite_none_right_eq_some, Option.some_inj, abs_le, greatestNanos, neg_mul,
    eq_comm (a := d)]

/-- The number of nanoseconds that the parts of a duration say, without the sign before them. -/
def DurationParts.total (p : DurationParts) : Int := p.seconds * nanosPerSecond + p.nanos

theorem DurationParts.duration?_eq_some_iff {p : DurationParts} {d : Duration} :
    p.duration? = some d ↔
      |p.seconds| ≤ Duration.greatestSeconds ∧ |p.total| ≤ Duration.greatestNanos ∧
        d = ⟨if p.negative then -p.total else p.total⟩ := by
  simp only [duration?, Option.bind_eq_bind, Option.bind_eq_some_iff, Option.guard_eq_some',
    Duration.ofNanos?_eq_some_iff, abs_le (a := p.seconds), exists_const]
  refine and_congr_right fun _ => ?_
  constructor
  · rintro ⟨_, ⟨hn, rfl⟩, -, rfl⟩
    exact ⟨hn, rfl⟩
  · rintro ⟨hn, rfl⟩
    refine ⟨_, ⟨hn, rfl⟩, ?_, rfl⟩
    split
    · rwa [abs_neg]
    · exact hn

namespace DurationForm

theorem Documented.exact_eq {f : DurationForm} (h : f.Documented) : f.exact = f.read := by
  have hcount {count : Option (List Char)} (hc : ∀ ds ∈ count, IsNumeral ds) :
      count.elim 0 signedNumeral = count.elim (0 : Int) (numeral ·) := by
    cases count with
    | none => rfl
    | some ds => exact (hc ds rfl).signedNumeral
  have hfraction : f.fraction.elim 0 (fun ds => signedNumeral (nineDigits ds))
      = f.fraction.elim 0 fun ds => ↑(numeral ds * nanosPerSecond / 10 ^ ds.length) := by
    cases hf : f.fraction with
    | none => rfl
    | some ds =>
      have hn := h.fraction ds hf
      rw [Option.elim_some, Option.elim_some, hn.nineDigits.signedNumeral, numeral_nineDigits hn.digits]
  rw [read, exact, nanos, nanos, hcount h.days, hcount h.hours, hcount h.minutes, hcount h.whole, hfraction]

/-- The components of a documented form in range add up. -/
theorem Documented.exists_parts? {f : DurationForm} (h : f.Documented)
    (hr : f.exact ≤ Duration.greatestNanos) :
    ∃ p, f.parts? = some p ∧ |p.seconds| ≤ Duration.greatestSeconds ∧ |f.exact| ≤ Duration.greatestNanos := by
  have hpos (count : Option (List Char)) : 0 ≤ count.elim (0 : Int) (numeral ·) := by
    cases count <;> simp
  have hfraction :
      0 ≤ f.fraction.elim (0 : Int) fun ds => ↑(numeral ds * nanosPerSecond / 10 ^ ds.length) := by
    cases f.fraction with
    | none => exact le_refl 0
    | some ds => exact Int.natCast_nonneg _
  have hD := hpos f.days
  have hH := hpos f.hours
  have hM := hpos f.minutes
  have hW := hpos f.whole
  have hg : Duration.greatestNanos = (2 ^ 63 - 1) * 1000000 := rfl
  have hs : Duration.greatestSeconds = (2 ^ 63 - 1) / 1000 := rfl
  have hday : secondsPerDay = 86400 := rfl
  have hnano : (nanosPerSecond : Int) = 1000000000 := rfl
  rw [exact, nanos, hday, hnano, hg] at hr
  -- Nothing is negative, so that every sum on the way is at most the whole, which is in range.
  refine ⟨_, parts?_eq_some_iff.mpr ⟨_, addCount?_of_numeral (le_refl 0) (by decide) h.days ?_,
    _, addCount?_of_numeral ?_ (by decide) h.hours ?_, _, addCount?_of_numeral ?_ (by decide) h.minutes ?_,
    _, addCount?_of_numeral ?_ (by decide) h.whole ?_, _, fractionNanos?_of_numeral h.fraction, ?_, rfl⟩,
    ?_, ?_⟩
  all_goals
    simp only [exact, nanos, hday, hnano, hg, hs, abs_le]
    omega

/-! ## Texts without signs and junk inside -/

/-- A text has no sign after its first character, and a point only before digits and a final `S`. -/
structure Plain (cs : List Char) : Prop where
  plus : '+' ∉ cs
  minus : '-' ∉ cs.tail
  point : ∀ a b, cs = a ++ '.' :: b → ∃ ds, IsNumeral ds ∧ b = ds ++ ['S']

theorem mem_chars {f : DurationForm} {c : Char} :
    c ∈ f.chars ↔ (f.negative = true ∧ c = '-') ∨ c = 'P' ∨ c ∈ f.body := by
  cases h : f.negative <;> simp [chars, h]

theorem mem_tail_chars {f : DurationForm} {c : Char} (hc : c ∈ f.body) : c ∈ f.chars.tail := by
  cases h : f.negative <;> simp [chars, h, hc]

theorem of_mem_tail_chars {f : DurationForm} {c : Char} (hc : c ∈ f.chars.tail) : c = 'P' ∨ c ∈ f.body := by
  cases h : f.negative <;> simp_all [chars]

theorem chars_of_fraction {f : DurationForm} {ds : List Char} (h : ds ∈ f.fraction) :
    ∃ front, f.chars = front ++ '.' :: (ds ++ ['S']) ∧ (f.Documented → '.' ∉ front) := by
  obtain ⟨⟨whole, _⟩, hs, ⟨⟩⟩ := Option.mem_bind_iff.mp h
  have hclock :
      f.clock = unitChars 'H' f.hours ++ (unitChars 'M' f.minutes ++ (whole ++ '.' :: ds ++ ['S'])) := by
    rw [clock, Option.mem_def.mp hs, secondsChars]
  refine ⟨(if f.negative then ['-'] else []) ++ 'P' :: (unitChars 'D' f.days ++ 'T' ::
    (unitChars 'H' f.hours ++ (unitChars 'M' f.minutes ++ whole))), ?_, ?_⟩
  · have hT : afterT f.clock = 'T' :: f.clock := if_neg (by simp [hclock])
    rw [chars, body, hT, hclock]
    simp only [List.append_assoc, List.cons_append]
  · intro hf hdot
    have hwhole : IsNumeral whole := hf.whole whole (Option.mem_map_of_mem _ hs)
    have hunit {letter : Char} {count : Option (List Char)} (hc : ∀ ds ∈ count, IsNumeral ds)
        (hl : letter ≠ '.') : '.' ∉ unitChars letter count := fun hm => by
      simpa [hl.symm] using isDigit_of_mem_unitChars hc hm
    have hminus : '.' ∉ if f.negative = true then ['-'] else [] := by split <;> simp
    simp [hminus, hunit hf.days, hunit hf.hours, hunit hf.minutes, hwhole.not_mem] at hdot

theorem Documented.plain {f : DurationForm} (h : f.Documented) : Plain f.chars where
  plus hc := by
    obtain ⟨-, hc⟩ | hc | hc := mem_chars.mp hc
    · simp at hc
    · simp at hc
    · simpa using h.of_mem_body hc
  minus hc := by
    obtain hc | hc := of_mem_tail_chars hc
    · simp at hc
    · simpa using h.of_mem_body hc
  point a b hab := by
    have hdot : '.' ∈ f.chars := by simp [hab]
    have hfraction : f.fraction ≠ none := by
      obtain ⟨-, hc⟩ | hc | hc := mem_chars.mp hdot
      · simp at hc
      · simp at hc
      · simpa using h.of_mem_body hc
    obtain ⟨ds, hds⟩ := Option.ne_none_iff_exists'.mp hfraction
    obtain ⟨front, hchars, hfront⟩ := chars_of_fraction hds
    have hn := h.fraction ds hds
    obtain ⟨-, -, rfl⟩ := (List.append_cons_inj_of_notMem (hfront h)
      (by simp [hn.not_mem])).mp (hchars.symm.trans hab)
    exact ⟨ds, hn, rfl⟩

theorem Tolerated.documented {f : DurationForm} (h : f.Tolerated) (hp : Plain f.chars) : f.Documented := by
  have hnumeral {ds : List Char} (hs : IsSigned ds) (hds : ∀ c ∈ ds, c ∈ f.body) : IsNumeral ds := by
    have : unsigned ds = ds := unsigned_of_not_mem
      (fun hc => hp.plus (List.mem_of_mem_tail (mem_tail_chars (hds _ hc))))
      fun hc => hp.minus (mem_tail_chars (hds _ hc))
    rwa [IsSigned, this] at hs
  have hclock {c : Char} (hc : c ∈ f.clock) : c ∈ f.body :=
    List.mem_append_right _ (mem_afterT.mpr ⟨List.ne_nil_of_mem hc, .inr hc⟩)
  exact {
    days := fun ds hds => hnumeral (h.days ds hds) fun c hc =>
      List.mem_append_left _ (mem_unitChars.mpr ⟨ds, hds, .inl hc⟩)
    hours := fun ds hds => hnumeral (h.hours ds hds) fun c hc =>
      hclock (List.mem_append_left _ (mem_unitChars.mpr ⟨ds, hds, .inl hc⟩))
    minutes := fun ds hds => hnumeral (h.minutes ds hds) fun c hc =>
      hclock (List.mem_append_right _ (List.mem_append_left _ (mem_unitChars.mpr ⟨ds, hds, .inl hc⟩)))
    whole := fun ds hds => hnumeral (h.whole ds hds) fun c hc => by
      obtain ⟨s, hs, rfl⟩ := Option.mem_map.mp hds
      exact hclock (List.mem_append_right _ (List.mem_append_right _ (mem_secondsChars.mpr ⟨s, hs, .inl hc⟩)))
    fraction := fun ds hds => by
      obtain ⟨front, hchars, -⟩ := chars_of_fraction hds
      obtain ⟨digits, hn, heq⟩ := hp.point _ _ hchars
      rwa [List.append_cancel_right heq]
    component := h.component }

end DurationForm

theorem Item.cast_duration_eq_ok_iff {text : String} {item : Item} :
    Item.cast text .duration = .ok item ↔
      ∃ d, Duration.ofText? (Text.trim text) = some d ∧ item = .duration d := by
  rw [Item.cast]
  simp only [Item.ofText?]
  cases Duration.ofText? (Text.trim text) with
  | none => simp
  | some d => simp [eq_comm]

/-- What is accepted. -/
theorem Duration.tolerated_of_ofText? {s : String} {d : Duration} (h : ofText? s = some d) :
    ∃ f : DurationForm, f.Tolerated ∧ f.chars = s.toList ∧ |f.read| ≤ greatestNanos ∧
      d = ⟨f.signed f.read⟩ := by
  obtain ⟨p, hp, hd⟩ := Option.bind_eq_some_iff.mp h
  obtain ⟨f, hchars, hf, hparts⟩ := DurationParts.ofText?_eq_some_iff.mp hp
  obtain ⟨htolerated, hnegative, hread⟩ := DurationForm.tolerated_of_parts? hf hparts
  obtain ⟨-, hrange, rfl⟩ := DurationParts.duration?_eq_some_iff.mp hd
  rw [← DurationParts.total] at hread
  rw [hread] at hrange
  exact ⟨f, htolerated, hchars, hrange, by rw [hread, hnegative]; rfl⟩

theorem Duration.ofText?_of_documented {s : String} {f : DurationForm} (h : f.Documented)
    (hchars : f.chars = s.toList) (hr : f.exact ≤ greatestNanos) : ofText? s = some ⟨f.signed f.exact⟩ := by
  obtain ⟨p, hparts, hseconds, hrange⟩ := h.exists_parts? hr
  obtain ⟨-, hnegative, hread⟩ := DurationForm.tolerated_of_parts? h.unambiguous hparts
  rw [← DurationParts.total, ← h.exact_eq] at hread
  have hp := DurationParts.ofText?_eq_some_iff.mpr ⟨f, hchars, h.unambiguous, hparts⟩
  refine Option.bind_eq_some_iff.mpr ⟨p, hp, DurationParts.duration?_eq_some_iff.mpr
    ⟨hseconds, hread ▸ hrange, ?_⟩⟩
  rw [hread, hnegative]
  rfl

/-- **Casting to a duration.** The plain texts that are accepted are, without the blanks around them, the
documented forms whose value is in range; each is cast to the exact sum of its components, with the fraction
taken to nine digits, and with its sign. Any other text that is accepted has a form too, with signs before its
counts or with a fraction of which the first nine characters are read. -/
theorem Item.cast_duration_grammar (text : String) (item : Item) :
    ((Item.cast text .duration = .ok item ∧ DurationForm.Plain (Text.trim text).toList) ↔
      ∃ f : DurationForm, f.Documented ∧ f.chars = (Text.trim text).toList ∧
        f.exact ≤ Duration.greatestNanos ∧ item = .duration ⟨f.signed f.exact⟩) ∧
    (Item.cast text .duration = .ok item →
      ∃ f : DurationForm, f.Tolerated ∧ f.chars = (Text.trim text).toList ∧
        |f.read| ≤ Duration.greatestNanos ∧ item = .duration ⟨f.signed f.read⟩) := by
  have hread (h : Item.cast text .duration = .ok item) :
      ∃ f : DurationForm, f.Tolerated ∧ f.chars = (Text.trim text).toList ∧
        |f.read| ≤ Duration.greatestNanos ∧ item = .duration ⟨f.signed f.read⟩ := by
    obtain ⟨d, hd, rfl⟩ := cast_duration_eq_ok_iff.mp h
    obtain ⟨f, hf, hchars, hrange, rfl⟩ := Duration.tolerated_of_ofText? hd
    exact ⟨f, hf, hchars, hrange, rfl⟩
  refine ⟨⟨?_, ?_⟩, hread⟩
  · rintro ⟨h, hplain⟩
    obtain ⟨f, hf, hchars, hrange, rfl⟩ := hread h
    have hdoc := hf.documented (hchars ▸ hplain)
    rw [← hdoc.exact_eq] at hrange ⊢
    exact ⟨f, hdoc, hchars, (le_abs_self _).trans hrange, rfl⟩
  · rintro ⟨f, hf, hchars, hrange, rfl⟩
    have hd := Duration.ofText?_of_documented hf hchars hrange
    exact ⟨cast_duration_eq_ok_iff.mpr ⟨_, hd, rfl⟩, hchars ▸ hf.plain⟩

/-- A text with every component, a sign before it and blanks around it. -/
theorem Item.cast_duration_grammar_every_component :
    Item.cast " -P1DT2H30M15.5S\n" .duration = .ok (.duration ⟨-95415500000000⟩) := by
  let f : DurationForm := ⟨true, some ['1'], some ['2'], some ['3', '0'], some (['1', '5'], some ['5'])⟩
  have hf : f.Documented := ⟨by decide, by decide, by decide, by decide, by decide, by decide⟩
  exact ((cast_duration_grammar " -P1DT2H30M15.5S\n" _).1.mpr
    ⟨f, hf, by decide +kernel, by decide +kernel, congrArg Item.duration (by decide +kernel)⟩).1

/-- What follows the ninth digit of a fraction is not looked at, and a count may have a sign of its own. -/
theorem Item.cast_duration_junk :
    Item.cast "PT1.123456789junkS" .duration = .ok (.duration ⟨1123456789⟩) ∧
      Item.cast "P-1D" .duration = .ok (.duration ⟨-86400000000000⟩) ∧
      ∀ f : DurationForm, f.Documented → f.chars ≠ "PT1.123456789junkS".toList ∧ f.chars ≠ "P-1D".toList := by
  refine ⟨cast_duration_eq_ok_iff.mpr ⟨_, by decide +kernel, rfl⟩,
    cast_duration_eq_ok_iff.mpr ⟨_, by decide +kernel, rfl⟩, fun f hf => ⟨fun h => ?_, fun h => ?_⟩⟩
  · obtain ⟨ds, hds, heq⟩ := (h ▸ hf.plain).point "PT1".toList "123456789junkS".toList (by decide)
    have : ds = "123456789junk".toList := List.append_cancel_right (heq.symm.trans (by decide))
    exact hds.not_mem (c := 'j') (by decide) (by rw [this]; decide)
  · exact (h ▸ hf.plain).minus (by decide)

end HybridQuery
