import HybridQuery.Proofs.Durations.Overflow
import HybridQuery.Proofs.Temporal.Fields

/-!
# Zones of times

A time of day may end in `Z`, or in the sign, hours and minutes of its offset from UTC. The offset is cut off
as six bytes, and its hours and minutes are what stands around a colon. The documented form has two digits for
each; what is read is more, since either may have a sign of its own and only their length together is fixed.

* `ZoneForm.Documented`, `ZoneForm.exact`: the documented form of a zone, and its offset.
* `ZoneForm.Tolerated`, `ZoneForm.read`: the form that is read, and what is read.
* `Item.cast_time_zones`: which texts are cast to a time, and to which.
-/

namespace HybridQuery

/-! ## Forms of zones -/

/-- How a time says its zone: not at all, by a `Z`, or by the hours and minutes of an offset. -/
inductive ZoneForm
  | absent
  | utc
  | offset (negative : Bool) (hours minutes : List Char)

namespace ZoneForm

/-- The text of a form. -/
def chars : ZoneForm → List Char
  | absent => []
  | utc => ['Z']
  | offset negative hours minutes => (if negative then '-' else '+') :: (hours ++ ':' :: minutes)

/-- The offset of a form in seconds, by the value of its hours and minutes. -/
def seconds (count : List Char → Int) : ZoneForm → Option Int
  | absent => none
  | utc => some 0
  | offset negative hours minutes =>
    some ((if negative then -1 else 1) * (count hours * 3600 + count minutes * 60))

/-- The hours and minutes of a form are as the predicate says, and its offset is less than a day. -/
def Spelled (parts : List Char → List Char → Prop) (count : List Char → Int) : ZoneForm → Prop
  | offset negative hours minutes =>
    parts hours minutes ∧ ∀ n ∈ (offset negative hours minutes).seconds count, |n| < secondsPerDay
  | _ => True

/-- The documented form: two digits for the hours, and two for the minutes. -/
abbrev Documented : ZoneForm → Prop :=
  Spelled (fun hours minutes =>
    (IsNumeral hours ∧ hours.length = 2) ∧ IsNumeral minutes ∧ minutes.length = 2) (numeral ·)

/-- The offset of a documented form. -/
def exact : ZoneForm → Option Int := seconds (numeral ·)

/-- The form that is read: hours and minutes may have a sign, and have four characters together. -/
abbrev Tolerated : ZoneForm → Prop :=
  Spelled (fun hours minutes =>
    IsSigned hours ∧ IsSigned minutes ∧ hours.length + minutes.length = 4) signedNumeral

/-- The offset that is read. -/
def read : ZoneForm → Option Int := seconds signedNumeral

theorem read_eq {negative : Bool} {hours minutes : List Char} (hh : IsNumeral hours) (hm : IsNumeral minutes) :
    (offset negative hours minutes).read = (offset negative hours minutes).exact := by
  rw [exact, read, seconds, seconds, hh.signedNumeral, hm.signedNumeral]

theorem Documented.exact_eq {f : ZoneForm} (h : f.Documented) : f.exact = f.read := by
  cases f with
  | absent => rfl
  | utc => rfl
  | offset negative hours minutes =>
    obtain ⟨⟨⟨hh, -⟩, hm, -⟩, -⟩ := h
    exact (read_eq hh hm).symm

theorem Documented.tolerated {f : ZoneForm} (h : f.Documented) : f.Tolerated := by
  cases f with
  | absent => trivial
  | utc => trivial
  | offset negative hours minutes =>
    obtain ⟨⟨⟨hh, hhl⟩, hm, hml⟩, hday⟩ := h
    exact ⟨⟨hh.isSigned, hm.isSigned, by omega⟩, fun n hn => hday n ((read_eq hh hm).symm.trans hn)⟩

end ZoneForm

/-! ## Cutting the zone off -/

theorem int32?_eq_some_iff {cs : List Char} {n : Int} (hlength : cs.length ≤ 9) :
    int32? cs = some n ↔ IsSigned cs ∧ n = signedNumeral cs := by
  rw [int32?, Option.bind_eq_some_iff]
  simp only [signedValue?_eq_some_iff, fits32?, Option.ite_none_right_eq_some, Option.some_inj]
  constructor
  · rintro ⟨_, ⟨h, rfl⟩, -, rfl⟩
    exact ⟨h, rfl⟩
  · rintro ⟨h, rfl⟩
    have hlt : |signedNumeral cs| < 10 ^ 9 :=
      h.abs_signedNumeral_lt.trans_le (pow_le_pow_right₀ (by decide) hlength)
    have htwo : Power.two 31 = 2147483648 := rfl
    exact ⟨_, ⟨h, rfl⟩, by rw [abs_lt] at hlt; omega, rfl⟩

/-- Number of bytes of a text. -/
def bytes (cs : List Char) : Nat := (cs.map Char.utf8Size).sum

theorem length_le_bytes (cs : List Char) : cs.length ≤ bytes cs := by
  induction cs with
  | nil => simp
  | cons c cs ih =>
    have := c.utf8Size_pos
    simp only [bytes, List.map_cons, List.sum_cons, List.length_cons] at ih ⊢
    omega

theorem bytes_append (a b : List Char) : bytes (a ++ b) = bytes a + bytes b := by simp [bytes]

theorem bytes_cons (c : Char) (cs : List Char) : bytes (c :: cs) = c.utf8Size + bytes cs := by simp [bytes]

theorem IsSigned.isDigit_or {cs : List Char} (h : IsSigned cs) {c : Char} (hc : c ∈ cs) :
    c.isDigit = true ∨ c = '+' ∨ c = '-' := by
  by_contra hn
  simp only [not_or, Bool.not_eq_true] at hn
  exact h.not_mem hn.1 hn.2.1 hn.2.2 hc

theorem utf8Size_of_isDigit {c : Char} (h : c.isDigit = true) : c.utf8Size = 1 := by
  simp only [Char.isDigit, Bool.and_eq_true, decide_eq_true_eq] at h
  exact Char.utf8Size_eq_one_iff.mpr (UInt32.le_trans h.2 (by decide))

theorem IsSigned.bytes_eq {cs : List Char} (h : IsSigned cs) : bytes cs = cs.length := by
  have hone : ∀ c ∈ cs, c.utf8Size = 1 := fun c hc => by
    obtain hd | rfl | rfl := h.isDigit_or hc
    · exact utf8Size_of_isDigit hd
    · rfl
    · rfl
  simp [bytes, List.map_congr_left hone]

theorem lastSixBytes?_go_eq_some_iff {front tail a b : List Char} {n : Nat} :
    lastSixBytes?.go front n tail = some (a, b) ↔
      ∃ mid, front.reverse = a ++ mid ∧ b = mid ++ tail ∧ bytes mid = n := by
  have hnil {mid : List Char} (h : bytes mid = 0) : mid = [] :=
    List.length_eq_zero_iff.mp (Nat.le_zero.mp (h ▸ length_le_bytes mid))
  fun_induction lastSixBytes?.go front n tail with
  | case1 front tail =>
    constructor
    · rintro ⟨⟩
      exact ⟨[], by simp, rfl, rfl⟩
    · rintro ⟨mid, hfront, rfl, hmid⟩
      obtain rfl := hnil hmid
      simp [hfront]
  | case2 n tail =>
    constructor
    · rintro ⟨⟩
    · rintro ⟨mid, hfront, -, hmid⟩
      obtain ⟨-, rfl⟩ := List.append_eq_nil_iff.mp hfront.symm
      simp [bytes] at hmid
  | case3 c front left tail hpos hle ih =>
    refine ih.trans ?_
    rw [List.reverse_cons]
    constructor
    · rintro ⟨mid, hfront, rfl, hmid⟩
      refine ⟨mid ++ [c], by rw [hfront, List.append_assoc], by simp, ?_⟩
      rw [bytes_append, hmid, bytes_cons]
      exact Nat.sub_add_cancel hle
    · rintro ⟨mid, hfront, rfl, hmid⟩
      obtain rfl | ⟨mid, d, rfl⟩ := List.eq_nil_or_concat' mid
      · exact absurd hmid.symm hpos
      · rw [← List.append_assoc] at hfront
        obtain ⟨hinit, hlast⟩ := List.append_inj' hfront rfl
        cases hlast
        rw [bytes_append, bytes_cons] at hmid
        exact ⟨mid, hinit, by simp, Nat.eq_sub_of_add_eq hmid⟩
  | case4 c front left tail hpos hle =>
    constructor
    · rintro ⟨⟩
    · rintro ⟨mid, hfront, rfl, hmid⟩
      obtain rfl | ⟨mid, d, rfl⟩ := List.eq_nil_or_concat' mid
      · exact absurd hmid.symm hpos
      · rw [List.reverse_cons, ← List.append_assoc] at hfront
        obtain ⟨-, hlast⟩ := List.append_inj' hfront rfl
        cases hlast
        rw [bytes_append, bytes_cons] at hmid
        omega

theorem lastSixBytes?_eq_some_iff {cs front tail : List Char} :
    lastSixBytes? cs = some (front, tail) ↔ cs = front ++ tail ∧ bytes tail = 6 := by
  simp [lastSixBytes?, lastSixBytes?_go_eq_some_iff, eq_comm (a := tail)]

theorem suffixOffset?_eq (sign : Int) (cs : List Char) :
    suffixOffset? sign cs = (splitOnce ':' cs).bind fun (hours, minutes) => do
      let hours ← int32? hours
      let minutes ← int32? minutes
      let offset := sign * (hours * 3600 + minutes * 60)
      guard (-secondsPerDay < offset ∧ offset < secondsPerDay)
      return offset := by
  rw [suffixOffset?, splitOnce]
  cases cs.dropWhile (· ≠ ':') <;> rfl

theorem suffixOffset?_eq_some_iff {sign n : Int} {cs : List Char} (hlength : cs.length ≤ 9) :
    suffixOffset? sign cs = some n ↔
      ∃ hours minutes, cs = hours ++ ':' :: minutes ∧ IsSigned hours ∧ IsSigned minutes ∧ |n| < secondsPerDay ∧
        n = sign * (signedNumeral hours * 3600 + signedNumeral minutes * 60) := by
  rw [suffixOffset?_eq, Option.bind_eq_some_iff]
  simp only [Prod.exists, splitOnce_eq_some_iff, Option.bind_eq_bind, Option.bind_eq_some_iff,
    Option.guard_eq_some', abs_lt]
  constructor
  · rintro ⟨hours, minutes, ⟨rfl, -⟩, h, hh, m, hm, _, hday, ⟨⟩⟩
    simp only [List.length_append, List.length_cons] at hlength
    obtain ⟨hours', rfl⟩ := (int32?_eq_some_iff (by omega)).mp hh
    obtain ⟨minutes', rfl⟩ := (int32?_eq_some_iff (by omega)).mp hm
    exact ⟨hours, minutes, rfl, hours', minutes', hday, rfl⟩
  · rintro ⟨hours, minutes, rfl, hh, hm, hday, rfl⟩
    simp only [List.length_append, List.length_cons] at hlength
    exact ⟨hours, minutes, ⟨rfl, hh.not_mem (by decide) (by decide) (by decide)⟩, _,
      (int32?_eq_some_iff (by omega)).mpr ⟨hh, rfl⟩, _, (int32?_eq_some_iff (by omega)).mpr ⟨hm, rfl⟩, (),
      hday, rfl⟩

/-! ## Times and their zones -/

theorem bytes_chars_offset {negative : Bool} {hours minutes : List Char} (hh : IsSigned hours)
    (hm : IsSigned minutes) :
    bytes (ZoneForm.offset negative hours minutes).chars = hours.length + minutes.length + 2 := by
  have hsign : (if negative then '-' else '+').utf8Size = 1 := by cases negative <;> rfl
  have hcolon : (':').utf8Size = 1 := rfl
  rw [ZoneForm.chars, bytes_cons, bytes_append, bytes_cons, hh.bytes_eq, hm.bytes_eq, hsign, hcolon]
  omega

theorem exists_zone_of_cut {cs clock zone : List Char} {n : Int} (negative : Bool)
    (hcut : lastSixBytes? cs = some (clock, (if negative then '-' else '+') :: zone))
    (hn : suffixOffset? (if negative then -1 else 1) zone = some n) :
    ∃ form : ZoneForm, form.Tolerated ∧ clock ++ form.chars = cs ∧ form.read = some n := by
  obtain ⟨rfl, hbytes⟩ := lastSixBytes?_eq_some_iff.mp hcut
  have hlength := length_le_bytes ((if negative then '-' else '+') :: zone)
  rw [hbytes, List.length_cons] at hlength
  obtain ⟨hours, minutes, rfl, hh, hm, hday, rfl⟩ := (suffixOffset?_eq_some_iff (by omega)).mp hn
  have hfour := (bytes_chars_offset hh hm).symm.trans hbytes
  exact ⟨.offset negative hours minutes, ⟨⟨hh, hm, by omega⟩, by rintro _ ⟨⟩; exact hday⟩, rfl, rfl⟩

/-- What is cut off is a zone. -/
theorem exists_zone_of_splitOffset? {cs clock : List Char} {n : Option Int}
    (h : splitOffset? cs = some (clock, n)) :
    ∃ form : ZoneForm, form.Tolerated ∧ clock ++ form.chars = cs ∧ form.read = n := by
  rw [splitOffset?] at h
  split at h
  case isTrue hZ =>
    obtain ⟨front, rfl⟩ := List.getLast?_eq_some_iff.mp hZ
    rw [List.dropLast_concat] at h
    cases h
    exact ⟨.utc, trivial, rfl, rfl⟩
  case isFalse =>
    split at h
    case h_1 hcut =>
      obtain ⟨z, hz, ⟨⟩⟩ := Option.map_eq_some_iff.mp h
      exact exists_zone_of_cut false hcut hz
    case h_2 hcut =>
      obtain ⟨z, hz, ⟨⟩⟩ := Option.map_eq_some_iff.mp h
      exact exists_zone_of_cut true hcut hz
    case h_3 =>
      cases h
      exact ⟨.absent, trivial, List.append_nil _, rfl⟩

/-- A zone is cut off where it begins, since no character before it could belong to a zone. -/
theorem splitOffset?_append {clock : List Char} {form : ZoneForm} (hclock : ∀ c ∈ clock, IsClockChar c)
    (hform : form.Tolerated) : splitOffset? (clock ++ form.chars) = some (clock, form.read) := by
  have hnot {c : Char} (hc : ¬ IsClockChar c) : c ∉ clock := fun hm => hc (hclock c hm)
  cases form with
  | utc => simp [splitOffset?, ZoneForm.chars, ZoneForm.read, ZoneForm.seconds]
  | absent =>
    rw [ZoneForm.chars, List.append_nil, splitOffset?,
      if_neg fun h => hnot (by decide) (List.mem_of_getLast? h)]
    split
    case h_1 hcut =>
      obtain ⟨rfl, -⟩ := lastSixBytes?_eq_some_iff.mp hcut
      exact absurd (by simp) (hnot (c := '+') (by decide))
    case h_2 hcut =>
      obtain ⟨rfl, -⟩ := lastSixBytes?_eq_some_iff.mp hcut
      exact absurd (by simp) (hnot (c := '-') (by decide))
    case h_3 => rfl
  | offset negative hours minutes =>
    obtain ⟨⟨hh, hm, hfour⟩, hday⟩ := hform
    have hcut : lastSixBytes? (clock ++ (ZoneForm.offset negative hours minutes).chars) =
        some (clock, (ZoneForm.offset negative hours minutes).chars) :=
      lastSixBytes?_eq_some_iff.mpr ⟨rfl, by rw [bytes_chars_offset hh hm, hfour]⟩
    have hn : suffixOffset? (if negative then -1 else 1) (hours ++ ':' :: minutes) =
        (ZoneForm.offset negative hours minutes).read :=
      (suffixOffset?_eq_some_iff (by simp; omega)).mpr ⟨hours, minutes, rfl, hh, hm, hday _ rfl, rfl⟩
    have hZ : (clock ++ (ZoneForm.offset negative hours minutes).chars).getLast? ≠ some 'Z' := fun h => by
      have hsign : 'Z' ≠ if negative then '-' else '+' := by cases negative <;> decide
      have hletter {part : List Char} (hp : IsSigned part) : 'Z' ∉ part :=
        hp.not_mem (by decide) (by decide) (by decide)
      simpa [ZoneForm.chars, hnot (c := 'Z') (by decide), hsign, hletter hh, hletter hm] using
        List.mem_of_getLast? h
    rw [splitOffset?, if_neg hZ, hcut]
    cases negative <;> simp_all [ZoneForm.chars, ZoneForm.read, ZoneForm.seconds]

/-- A time is read from a time of day and a zone. -/
theorem ZonedTime.ofText?_eq_some_iff {s : String} {t : ZonedTime} :
    ofText? s = some t ↔
      ∃ clock, ∃ form : ZoneForm, form.Tolerated ∧ clock ++ form.chars = s.toList ∧
        clockField.whole? clock = some t.clock ∧ t.offset = form.read := by
  simp only [ofText?, Option.bind_eq_bind, Option.bind_eq_some_iff, Prod.exists]
  constructor
  · rintro ⟨clock, n, hsplit, time, htime, ⟨⟩⟩
    obtain ⟨form, hform, hchars, rfl⟩ := exists_zone_of_splitOffset? hsplit
    exact ⟨clock, form, hform, hchars, htime, rfl⟩
  · rintro ⟨clock, form, hform, hchars, htime, hoffset⟩
    have hsplit := splitOffset?_append (isClockChar_of_whole? htime) hform
    rw [hchars] at hsplit
    exact ⟨clock, form.read, hsplit, t.clock, htime, by rw [← hoffset]; rfl⟩

theorem Item.cast_time_eq_ok_iff {text : String} {item : Item} :
    cast text .time = .ok item ↔ ∃ t, ZonedTime.ofText? (Text.trim text) = some t ∧ item = .time t := by
  rw [cast]
  simp only [ofText?]
  cases ZonedTime.ofText? (Text.trim text) with
  | none => simp
  | some t => simp [eq_comm]

namespace ZoneForm

/-- In a text no sign follows another, and the third character after a sign is a colon. -/
def Plain (cs : List Char) : Prop :=
  ∀ front sign rest, cs = front ++ sign :: rest → sign = '+' ∨ sign = '-' →
    '+' ∉ rest ∧ '-' ∉ rest ∧ rest[2]? = some ':'

theorem Tolerated.documented {form : ZoneForm} {clock : List Char} (h : form.Tolerated)
    (hplain : Plain (clock ++ form.chars)) : form.Documented := by
  cases form with
  | absent => trivial
  | utc => trivial
  | offset negative hours minutes =>
    obtain ⟨⟨hh, hm, hfour⟩, hday⟩ := h
    obtain ⟨hplus, hminus, hcolon⟩ := hplain clock _ _ rfl (by cases negative <;> simp)
    have hdigits {part : List Char} (hp : IsSigned part) (hsub : ∀ c ∈ part, c ∈ hours ++ ':' :: minutes) :
        IsNumeral part := by
      have : unsigned part = part :=
        unsigned_of_not_mem (fun hc => hplus (hsub _ hc)) fun hc => hminus (hsub _ hc)
      rwa [IsSigned, this] at hp
    have hh' : IsNumeral hours := hdigits hh fun c hc => List.mem_append_left _ hc
    have hm' : IsNumeral minutes := hdigits hm fun c hc => List.mem_append_right _ (List.mem_cons_of_mem _ hc)
    -- The colon at the third place is the one between the two, since neither contains one.
    have htwo : hours.length = 2 := by
      rw [List.getElem?_append] at hcolon
      split at hcolon
      · exact absurd (List.mem_of_getElem? hcolon) (hh'.not_mem (by decide))
      · by_contra hne
        obtain ⟨k, hk⟩ : ∃ k, 2 - hours.length = k + 1 := ⟨1 - hours.length, by omega⟩
        rw [hk, List.getElem?_cons_succ] at hcolon
        exact hm'.not_mem (by decide) (List.mem_of_getElem? hcolon)
    exact ⟨⟨⟨hh', htwo⟩, hm', by omega⟩, fun n hn => hday n ((read_eq hh' hm').trans hn)⟩

theorem Documented.plain {form : ZoneForm} {clock : List Char} (h : form.Documented)
    (hclock : ∀ c ∈ clock, IsClockChar c) : Plain (clock ++ form.chars) := by
  intro front sign rest hcs hsign
  have hnot : sign ∉ clock := fun hm => by
    obtain rfl | rfl := hsign <;> exact absurd (hclock _ hm) (by decide)
  obtain ⟨mid, hmid⟩ : ∃ mid, form.chars = mid ++ sign :: rest := by
    obtain ⟨mid, -, hmid⟩ | ⟨_ | ⟨c, mid⟩, rfl, hmid⟩ := List.append_eq_append_iff.mp hcs
    · exact ⟨mid, hmid⟩
    · exact ⟨[], hmid.symm⟩
    · obtain ⟨rfl, -⟩ := List.cons.inj hmid
      exact absurd (by simp) hnot
  cases form with
  | absent => simp [chars] at hmid
  | utc =>
    have hZ : sign ∈ ['Z'] := by
      change ['Z'] = _ at hmid
      simp [hmid]
    obtain rfl | rfl := hsign <;> simp at hZ
  | offset negative hours minutes =>
    obtain ⟨⟨⟨hh, htwo⟩, hm, -⟩, -⟩ := h
    have hdigits {c : Char} (hc : c = '+' ∨ c = '-') : c ∉ hours ++ ':' :: minutes := by
      have hpart {part : List Char} (hp : IsNumeral part) : c ∉ part :=
        hp.not_mem (by obtain rfl | rfl := hc <;> decide)
      have hcolon : c ≠ ':' := by obtain rfl | rfl := hc <;> decide
      simp [hpart hh, hpart hm, hcolon]
    cases mid with
    | nil =>
      obtain ⟨-, rfl⟩ := List.cons.inj hmid
      exact ⟨hdigits (.inl rfl), hdigits (.inr rfl), by simp [← htwo]⟩
    | cons c mid =>
      obtain ⟨-, hmid⟩ := List.cons.inj hmid
      exact absurd (by simp [hmid]) (hdigits hsign)

end ZoneForm

/-- **Zones of times.** A text is cast to a time if, without the blanks around it, it is a time of day and a
zone as it is read, and the zone of the time is absent, UTC or the offset that is read. Among the texts whose
signs have their colon at the third place and no sign after them, the zones are the documented ones. -/
theorem Item.cast_time_zones (text : String) (item : Item) :
    (cast text .time = .ok item ↔
      ∃ clock, ∃ form : ZoneForm, ∃ t, form.Tolerated ∧ clock ++ form.chars = (Text.trim text).toList ∧
        clockField.whole? clock = some t ∧ item = .time ⟨t, form.read⟩) ∧
    (cast text .time = .ok item ∧ ZoneForm.Plain (Text.trim text).toList ↔
      ∃ clock, ∃ form : ZoneForm, ∃ t, form.Documented ∧ clock ++ form.chars = (Text.trim text).toList ∧
        clockField.whole? clock = some t ∧ item = .time ⟨t, form.exact⟩) := by
  have hread : cast text .time = .ok item ↔
      ∃ clock, ∃ form : ZoneForm, ∃ t, form.Tolerated ∧ clock ++ form.chars = (Text.trim text).toList ∧
        clockField.whole? clock = some t ∧ item = .time ⟨t, form.read⟩ := by
    rw [cast_time_eq_ok_iff]
    simp only [ZonedTime.ofText?_eq_some_iff]
    constructor
    · rintro ⟨⟨t, n⟩, ⟨clock, form, hform, hchars, ht, rfl⟩, rfl⟩
      exact ⟨clock, form, t, hform, hchars, ht, rfl⟩
    · rintro ⟨clock, form, t, hform, hchars, ht, rfl⟩
      exact ⟨⟨t, form.read⟩, ⟨clock, form, hform, hchars, ht, rfl⟩, rfl⟩
  refine ⟨hread, ?_⟩
  constructor
  · rintro ⟨h, hplain⟩
    obtain ⟨clock, form, t, hform, hchars, ht, rfl⟩ := hread.mp h
    have hdoc := hform.documented (hchars ▸ hplain)
    exact ⟨clock, form, t, hdoc, hchars, ht, by rw [hdoc.exact_eq]⟩
  · rintro ⟨clock, form, t, hdoc, hchars, ht, rfl⟩
    rw [hdoc.exact_eq] at hread ⊢
    exact ⟨hread.mpr ⟨clock, form, t, hdoc.tolerated, hchars, ht, rfl⟩,
      hchars ▸ hdoc.plain (isClockChar_of_whole? ht)⟩

/-- Hours and minutes of uneven length, and hours with a sign of their own. Neither text ends in a documented
zone. -/
theorem Item.cast_time_uneven_zones :
    cast "10:00:00+1:234" .time = .ok (.time ⟨⟨36000, 0⟩, some 17640⟩) ∧
      cast "10:00:00+-1:30" .time = .ok (.time ⟨⟨36000, 0⟩, some (-1800)⟩) ∧
      ∀ text ∈ ["10:00:00+1:234", "10:00:00+-1:30"], ∀ clock, ∀ form : ZoneForm, form.Documented →
        clock ++ form.chars = text.toList → clockField.whole? clock = none := by
  refine ⟨cast_time_eq_ok_iff.mpr ⟨_, by decide +kernel, rfl⟩,
    cast_time_eq_ok_iff.mpr ⟨_, by decide +kernel, rfl⟩, fun text htext clock form hform hchars => ?_⟩
  by_contra hclock
  obtain ⟨t, ht⟩ := Option.ne_none_iff_exists'.mp hclock
  have hplain := hchars ▸ hform.plain (isClockChar_of_whole? ht)
  simp only [List.mem_cons, List.not_mem_nil, or_false] at htext
  obtain rfl | rfl := htext
  · exact absurd (hplain "10:00:00".toList '+' "1:234".toList (by decide) (.inl rfl)).2.2 (by decide)
  · exact (hplain "10:00:00".toList '+' "-1:30".toList (by decide) (.inl rfl)).2.1 (by decide)

end HybridQuery
