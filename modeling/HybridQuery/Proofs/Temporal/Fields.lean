import Mathlib.Data.List.Basic
import HybridQuery.Proofs.Durations.Forms

/-!
# Fields of dates and times

What the readers of fields take off a text. A date and a time of day are read from characters of their own, so
that a letter or a sign after them is left.

* `Taken`: a text with characters of a kind taken off its front.
* `digitField_eq_some_iff`: a field of digits takes as many as there are.
* `taken_of_dateField`, `taken_of_clockField`: the characters of which a date and a time of day are read.
-/

namespace HybridQuery

/-! ## What is taken -/

/-- What is left of a text after characters of a kind are taken off its front. -/
def Taken (p : Char → Prop) (cs rest : List Char) : Prop := ∃ taken, cs = taken ++ rest ∧ ∀ c ∈ taken, p c

namespace Taken

variable {p q : Char → Prop} {a b c : List Char} {x : Char}

theorem refl (a : List Char) : Taken p a a := ⟨[], rfl, by simp⟩

theorem trans (h : Taken p a b) (h' : Taken p b c) : Taken p a c := by
  obtain ⟨s, rfl, hs⟩ := h
  obtain ⟨t, rfl, ht⟩ := h'
  exact ⟨s ++ t, (List.append_assoc s t c).symm, fun x hx => (List.mem_append.mp hx).elim (hs x) (ht x)⟩

theorem mono (hpq : ∀ x, p x → q x) (h : Taken p a b) : Taken q a b := by
  obtain ⟨s, rfl, hs⟩ := h
  exact ⟨s, rfl, fun x hx => hpq x (hs x hx)⟩

theorem of_literal {u : Unit} (h : literal x a = some (u, b)) (hx : p x) : Taken p a b := by
  obtain rfl := literal_eq_some_iff.mp h
  exact ⟨[x], rfl, by simpa using hx⟩

theorem of_nil (h : Taken p a []) : ∀ x ∈ a, p x := by
  obtain ⟨s, rfl, hs⟩ := h
  simpa using hs

end Taken

/-- A text goes on without a digit. -/
def NoDigit (cs : List Char) : Prop := ∀ c ∈ cs.head?, c.isDigit = false

theorem taken_trimStart (cs : List Char) : Taken (Text.isBlank · = true) cs (Text.trimStart cs) := by
  refine ⟨cs.takeWhile Text.isBlank, List.takeWhile_append_dropWhile.symm, ?_⟩
  intro c hc
  exact List.all_eq_true.mp List.all_takeWhile c hc

theorem takeWhile_append_of_noDigit {ds rest : List Char} (hds : ∀ c ∈ ds, c.isDigit = true)
    (hrest : NoDigit rest) : (ds ++ rest).takeWhile Char.isDigit = ds := by
  rw [List.takeWhile_append_of_pos hds, List.append_right_eq_self]
  cases rest with
  | nil => rfl
  | cons c rest => exact List.takeWhile_cons_of_neg (by simp [hrest c rfl])

theorem takeWhile_take_eq_iff {ds rest : List Char} {most : Nat} (hds : ∀ c ∈ ds, c.isDigit = true)
    (hmost : ds.length ≤ most) :
    ((ds ++ rest).take most).takeWhile Char.isDigit = ds ↔ ds.length = most ∨ NoDigit rest := by
  rw [List.take_append, List.take_of_length_le hmost, List.takeWhile_append_of_pos hds,
    List.append_right_eq_self]
  cases rest with
  | nil => simp [NoDigit]
  | cons c rest =>
    rcases hmost.eq_or_lt with h | h
    · simp [h]
    · obtain ⟨left, hleft⟩ : ∃ left, most - ds.length = left + 1 := ⟨most - ds.length - 1, by omega⟩
      simp [hleft, NoDigit, h.ne, List.takeWhile_cons]

/-- A field of digits is as many digits as there are, within its bounds. -/
theorem digitField_eq_some_iff {least most n : Nat} {cs rest : List Char} :
    digitField least most cs = some (n, rest) ↔
      ∃ ds, cs = ds ++ rest ∧ IsNumeral ds ∧ least ≤ ds.length ∧ ds.length ≤ most ∧
        (ds.length = most ∨ NoDigit rest) ∧ n = numeral ds := by
  rw [digitField, Option.ite_none_left_eq_some, Option.map_eq_some_iff]
  constructor
  · rintro ⟨hleast, n, hn, ⟨⟩⟩
    obtain ⟨hnumeral, rfl⟩ := digitsValue?_eq_some_iff.mp hn
    generalize hds : (cs.take most).takeWhile Char.isDigit = ds at *
    have hfront : ds <+: cs.take most := hds ▸ List.takeWhile_prefix _
    have hmost : ds.length ≤ most := hfront.length_le.trans (List.length_take_le _ _)
    have hcs : cs = ds ++ cs.drop ds.length :=
      (List.prefix_iff_eq_append.mp (hfront.trans (List.take_prefix _ _))).symm
    exact ⟨ds, hcs, hnumeral, by omega, hmost, (takeWhile_take_eq_iff hnumeral.digits hmost).mp (hcs ▸ hds), rfl⟩
  · rintro ⟨ds, rfl, hn, hleast, hmost, hend, rfl⟩
    rw [(takeWhile_take_eq_iff hn.digits hmost).mpr hend]
    exact ⟨by omega, _, digitsValue?_eq_some_iff.mpr ⟨hn, rfl⟩, by simp⟩

theorem taken_of_digitField {least most n : Nat} {cs rest : List Char}
    (h : digitField least most cs = some (n, rest)) : Taken (Char.isDigit · = true) cs rest := by
  obtain ⟨ds, hcs, hn, -⟩ := digitField_eq_some_iff.mp h
  exact ⟨ds, hcs, hn.digits⟩

theorem PrefixReader.whole?_eq_some_iff {α : Type} {reader : PrefixReader α} {cs : List Char} {value : α} :
    reader.whole? cs = some value ↔ reader cs = some (value, []) := by
  rw [whole?]
  split <;> simp_all

/-! ## Characters of dates and times of day -/

/-- A character of a time of day. -/
def IsClockChar (c : Char) : Prop := c.isDigit = true ∨ Text.isBlank c = true ∨ c = ':' ∨ c = '.'

instance (c : Char) : Decidable (IsClockChar c) := inferInstanceAs (Decidable (_ ∨ _ ∨ _ ∨ _))

/-- A character of a date. -/
def IsDateChar (c : Char) : Prop := c.isDigit = true ∨ Text.isBlank c = true ∨ c = '-' ∨ c = '+'

instance (c : Char) : Decidable (IsDateChar c) := inferInstanceAs (Decidable (_ ∨ _ ∨ _ ∨ _))

theorem taken_of_shortField {n : Nat} {cs rest : List Char} (h : shortField cs = some (n, rest)) :
    Taken (fun c => c.isDigit = true ∨ Text.isBlank c = true) cs rest :=
  ((taken_trimStart cs).mono fun _ => .inr).trans ((taken_of_digitField h).mono fun _ => .inl)

theorem taken_of_yearField {n : Int} {cs rest : List Char} (h : yearField cs = some (n, rest)) :
    Taken IsDateChar cs rest := by
  have hsigned {sign : Char} {cs : List Char} {m : Nat} (hsign : sign = '-' ∨ sign = '+')
      (h : digitField 1 cs.length cs = some (m, rest)) : Taken IsDateChar (sign :: cs) rest := by
    have hfirst : Taken IsDateChar (sign :: cs) cs := ⟨[sign], rfl, by simp [IsDateChar, hsign]⟩
    exact hfirst.trans ((taken_of_digitField h).mono fun _ => .inl)
  refine ((taken_trimStart cs).mono fun _ hc => .inr (.inl hc)).trans ?_
  rw [yearField] at h
  generalize Text.trimStart cs = cs at h ⊢
  -- A minus, a plus, or no sign.
  split at h <;> obtain ⟨⟨m, _⟩, h, ⟨⟩⟩ := Option.map_eq_some_iff.mp h
  · exact hsigned (.inl rfl) h
  · exact hsigned (.inr rfl) h
  · exact (taken_of_digitField h).mono fun _ => .inl

theorem taken_of_dateField {d : Date} {cs rest : List Char} (h : dateField cs = some (d, rest)) :
    Taken IsDateChar cs rest := by
  have hshort {n : Nat} {cs rest : List Char} (h : shortField cs = some (n, rest)) : Taken IsDateChar cs rest :=
    (taken_of_shortField h).mono fun _ hc => hc.imp_right .inl
  have hmark {u : Unit} {cs rest : List Char} (h : literal '-' cs = some (u, rest)) : Taken IsDateChar cs rest :=
    .of_literal h (.inr (.inr (.inl rfl)))
  simp only [dateField, Option.bind_eq_bind, Option.bind_eq_some_iff, Prod.exists] at h
  obtain ⟨_, _, hyear, _, _, hmark₁, _, _, hmonth, _, _, hmark₂, _, _, hday, _, -, ⟨⟩⟩ := h
  exact (taken_of_yearField hyear).trans ((hmark hmark₁).trans ((hshort hmonth).trans
    ((hmark hmark₂).trans (hshort hday))))

theorem taken_of_optionalFraction {n : Nat} {cs rest : List Char} (h : optionalFraction cs = some (n, rest)) :
    Taken IsClockChar cs rest := by
  rw [optionalFraction.eq_def] at h
  split at h
  case h_1 cs =>
    obtain ⟨_, -, ⟨⟩⟩ := Option.bind_eq_some_iff.mp h
    have hpoint : Taken IsClockChar ('.' :: cs) cs := ⟨['.'], rfl, by simp [IsClockChar]⟩
    have hdigits : Taken IsClockChar cs (cs.drop (cs.takeWhile Char.isDigit).length) := by
      refine ⟨_, (List.prefix_iff_eq_append.mp (List.takeWhile_prefix _)).symm, ?_⟩
      intro c hc
      exact .inl (List.all_eq_true.mp List.all_takeWhile c hc)
    exact hpoint.trans hdigits
  case h_2 =>
    cases h
    exact .refl _

theorem taken_of_clockField {t : ClockTime} {cs rest : List Char} (h : clockField cs = some (t, rest)) :
    Taken IsClockChar cs rest := by
  have hshort {n : Nat} {cs rest : List Char} (h : shortField cs = some (n, rest)) : Taken IsClockChar cs rest :=
    (taken_of_shortField h).mono fun _ hc => hc.imp_right .inl
  have hmark {u : Unit} {cs rest : List Char} (h : literal ':' cs = some (u, rest)) : Taken IsClockChar cs rest :=
    .of_literal h (.inr (.inr (.inl rfl)))
  simp only [clockField, Option.bind_eq_bind, Option.bind_eq_some_iff, Prod.exists] at h
  obtain ⟨_, _, hhour, _, _, hmark₁, _, _, hminute, _, _, hmark₂, _, _, hsecond, _, _, hnano, _, -, ⟨⟩⟩ := h
  exact (hshort hhour).trans ((hmark hmark₁).trans ((hshort hminute).trans ((hmark hmark₂).trans
    ((hshort hsecond).trans (taken_of_optionalFraction hnano)))))

theorem isClockChar_of_whole? {t : ClockTime} {cs : List Char} (h : clockField.whole? cs = some t) :
    ∀ c ∈ cs, IsClockChar c :=
  (taken_of_clockField (PrefixReader.whole?_eq_some_iff.mp h)).of_nil

end HybridQuery
