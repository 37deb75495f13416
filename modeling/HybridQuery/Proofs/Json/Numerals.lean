import HybridQuery.Json.Reader
import HybridQuery.Proofs.Rounding
import HybridQuery.Proofs.Temporal.Printed

/-!
# Reading the digits of numbers

The text of a decimal is an integer part with what follows it: nothing, a fraction, or an exponent. JSON reads
all of its digits as long as they fit 64 bits, and a decimal is read from every text with a point.

* `Json.IsWhole`: the digits of an integer part.
* `Json.readUnsigned?_digits`, `Json.readUnsigned?_pointed`, `Json.readUnsigned?_scientific`: what JSON reads of
  the three forms.
* `Decimal.ofText?_pointed`: the decimal of a text with a point.
-/

namespace HybridQuery

/-! ## Digits -/

theorem numeral_cons (c : Char) (ds : List Char) :
    numeral (c :: ds) = Json.digitValue c * 10 ^ ds.length + numeral ds := by
  rw [← List.singleton_append, numeral_append, numeral_singleton, Json.digitValue]

theorem noDigit_nil : NoDigit [] := by simp [NoDigit]

theorem dropWhile_of_noDigit {rest : List Char} (h : NoDigit rest) : rest.dropWhile Char.isDigit = rest := by
  cases rest with
  | nil => rfl
  | cons c rest => exact List.dropWhile_cons_of_neg (by simp [h c rfl])

theorem takeWhile_of_noDigit {rest : List Char} (h : NoDigit rest) : rest.takeWhile Char.isDigit = [] :=
  @takeWhile_append_of_noDigit [] rest (by simp) h

theorem IsNumeral.takeWhile {ds : List Char} (h : IsNumeral ds) : ds.takeWhile Char.isDigit = ds :=
  List.takeWhile_eq_self_iff.mpr h.digits

theorem IsNumeral.dropWhile {ds : List Char} (h : IsNumeral ds) : ds.dropWhile Char.isDigit = [] :=
  List.dropWhile_eq_nil_iff.mpr h.digits

theorem IsNumeral.head?_any {ds : List Char} (h : IsNumeral ds) (rest : List Char) :
    (ds ++ rest).head?.any Char.isDigit = true := by
  obtain ⟨c, ds, rfl⟩ := List.exists_cons_of_ne_nil h.nonempty
  exact h.digits c List.mem_cons_self

theorem IsNumeral.filter_ne {ds : List Char} (h : IsNumeral ds) {c : Char} (hc : c.isDigit = false) :
    ds.filter (· ≠ c) = ds :=
  List.filter_eq_self.mpr fun _ hd => decide_eq_true fun heq => h.not_mem hc (heq ▸ hd)

namespace Json

/-- The digits of an integer part: no zero stands before others. -/
structure IsWhole (ds : List Char) : Prop extends IsNumeral ds where
  plain : ds.head? = some '0' → ds = ['0']

theorem isWhole_of_le {ds : List Char} (h : IsNumeral ds) (hle : 10 ^ (ds.length - 1) ≤ numeral ds) :
    IsWhole ds := by
  refine ⟨h, fun hzero => ?_⟩
  obtain ⟨rest, rfl⟩ := List.head?_eq_some_iff.mp hzero
  have hlt := numeral_lt fun c hc => h.digits c (List.mem_cons_of_mem _ hc)
  have hdigit : digitValue '0' = 0 := rfl
  rw [numeral_cons, hdigit, Nat.zero_mul, Nat.zero_add, List.length_cons, Nat.add_sub_cancel] at hle
  omega

theorem isWhole_digits (n : Nat) : IsWhole (Decimal.digits n) := by
  rcases Nat.eq_zero_or_pos n with rfl | hpos
  · exact ⟨isNumeral_digits 0, fun _ => rfl⟩
  · refine isWhole_of_le (isNumeral_digits n) ?_
    rw [numeral_digits]
    exact Decimal.pow_digitCount_le hpos.ne'

/-- An integer part keeps being one with zeros after it. -/
theorem isWhole_zeros {n : Nat} (hn : n ≠ 0) (k : Nat) :
    IsWhole (Decimal.digits n ++ List.replicate k '0') ∧
      numeral (Decimal.digits n ++ List.replicate k '0') = n * 10 ^ k := by
  have hdigits := isNumeral_digits n
  have hcount := Decimal.digitCount_pos n
  have hlength : (Decimal.digits n ++ List.replicate k '0').length - 1 = Decimal.digitCount n - 1 + k := by
    rw [List.length_append, List.length_replicate]
    change Decimal.digitCount n + k - 1 = _
    omega
  have hnumeral : numeral (Decimal.digits n ++ List.replicate k '0') = n * 10 ^ k := by
    rw [numeral_append, numeral_zeros, numeral_digits, List.length_replicate, add_zero]
  refine ⟨isWhole_of_le ⟨by simp [hdigits.nonempty], fun c hc => ?_⟩ ?_, hnumeral⟩
  · rcases List.mem_append.mp hc with hc | hc
    · exact hdigits.digits c hc
    · rw [List.eq_of_mem_replicate hc]
      rfl
  · rw [hlength, hnumeral, pow_add]
    exact Nat.mul_le_mul_right _ (Decimal.pow_digitCount_le hn)

/-- Digits with a point: an integer part and as many digits after it as the point stands from the right. -/
theorem exists_pointed (n : Nat) {s : Nat} (hs : 0 < s) : ∃ whole fraction,
    Decimal.pointed (Decimal.digits n) s = whole ++ '.' :: fraction ∧ IsWhole whole ∧ IsNumeral fraction ∧
      fraction.length = s ∧ numeral (whole ++ fraction) = n := by
  have hn := isWhole_digits n
  have hvalue := numeral_digits n
  generalize Decimal.digits n = ds at *
  have hlength := List.length_pos_iff.mpr hn.nonempty
  rw [Decimal.pointed]
  split_ifs with hlt
  · have hdrop : (ds.drop (ds.length - s)).length = s := by
      rw [List.length_drop]
      omega
    refine ⟨_, _, rfl, ⟨⟨?_, fun c hc => hn.digits c (List.mem_of_mem_take hc)⟩, fun hzero => ?_⟩,
      ⟨?_, fun c hc => hn.digits c (List.mem_of_mem_drop hc)⟩, hdrop, ?_⟩
    · rw [Ne, List.take_eq_nil_iff, not_or]
      exact ⟨by omega, hn.nonempty⟩
    · rw [List.head?_take, if_neg (by omega)] at hzero
      have := hn.plain hzero
      rw [this, List.length_singleton] at hlt
      omega
    · exact List.length_pos_iff.mp (by omega)
    · rw [List.take_append_drop, hvalue]
  · refine ⟨['0'], _, rfl, ⟨⟨by simp, by simp⟩, fun _ => rfl⟩, ⟨by simp [hn.nonempty], fun c hc => ?_⟩, ?_, ?_⟩
    · rcases List.mem_append.mp hc with hc | hc
      · rw [List.eq_of_mem_replicate hc]
        rfl
      · exact hn.digits c hc
    · rw [List.length_append, List.length_replicate]
      omega
    · have hzeros : ['0'] ++ (List.replicate (s - ds.length) '0' ++ ds) =
          List.replicate (s - ds.length + 1) '0' ++ ds := by
        rw [List.replicate_succ]
        rfl
      rw [hzeros, numeral_append, numeral_zeros, hvalue, Nat.zero_mul, Nat.zero_add]

/-! ## Numbers that JSON reads -/

theorem takeDigits_append {ds rest : List Char} (hds : ∀ c ∈ ds, c.isDigit = true) (hrest : NoDigit rest)
    {start : Nat} (h : start * 10 ^ ds.length + numeral ds < significandBound) :
    takeDigits start (ds ++ rest) = (start * 10 ^ ds.length + numeral ds, ds.length, rest) := by
  induction ds generalizing start with
  | nil =>
    cases rest with
    | nil => simp [takeDigits, numeral]
    | cons c rest => simp [takeDigits, hrest c rfl, numeral]
  | cons c ds ih =>
    have hsplit : start * 10 ^ (c :: ds).length + numeral (c :: ds) =
        (start * 10 + digitValue c) * 10 ^ ds.length + numeral ds := by
      rw [numeral_cons, List.length_cons]
      ring
    rw [hsplit] at h ⊢
    have hfits : start * 10 + digitValue c < significandBound :=
      lt_of_le_of_lt ((Nat.le_mul_of_pos_right _ (by positivity)).trans (Nat.le_add_right ..)) h
    rw [List.cons_append, takeDigits, if_pos ⟨hds c List.mem_cons_self, hfits⟩,
      ih (fun c hc => hds c (List.mem_cons_of_mem _ hc)) h]
    rfl

/-- What is read after the digits of an integer part. -/
def afterWhole (negative : Bool) (significand : Nat) : List Char → Option (Json × List Char)
  | '.' :: rest => (readFraction? negative significand 0 rest).map fun r => (.double r.1, r.2)
  | 'e' :: rest => (readExponent? negative significand 0 rest).map fun r => (.double r.1, r.2)
  | 'E' :: rest => (readExponent? negative significand 0 rest).map fun r => (.double r.1, r.2)
  | rest =>
    let n : Int := if negative then -(significand : Int) else significand
    if negative ∧ (significand = 0 ∨ n < leastInteger) then
      some (.double (-significand.toUInt64.toFloat), rest)
    else some (.integer n, rest)

theorem readUnsigned?_append (negative : Bool) {whole rest : List Char} (hwhole : IsWhole whole)
    (hlt : numeral whole < significandBound) (hrest : NoDigit rest) :
    readUnsigned? negative (whole ++ rest) = afterWhole negative (numeral whole) rest := by
  obtain ⟨c, ds, rfl⟩ := List.exists_cons_of_ne_nil hwhole.nonempty
  have hdigit : c.isDigit = true := hwhole.digits c List.mem_cons_self
  have htaken : (if c = '0' then (0, 1, (c :: (ds ++ rest)).drop 1) else takeDigits 0 (c :: (ds ++ rest))) =
      (numeral (c :: ds), (c :: ds).length, rest) := by
    split_ifs with hzero
    · have hplain := hwhole.plain (by rw [hzero]; rfl)
      rw [← List.cons_append, hplain]
      rfl
    · rw [← List.cons_append, takeDigits_append hwhole.digits hrest (by rwa [Nat.zero_mul, Nat.zero_add]),
        Nat.zero_mul, Nat.zero_add]
  have hhead : rest.head?.any Char.isDigit = false := by
    cases rest with
    | nil => rfl
    | cons c rest => exact hrest c rfl
  simp only [readUnsigned?, List.cons_append, List.head?_cons, Option.bind_eq_bind, Option.bind_some, hdigit,
    guard_true, htaken, hhead, takeWhile_of_noDigit hrest, dropWhile_of_noDigit hrest, Bool.false_eq_true,
    and_false, if_false]
  clear htaken hhead hrest
  generalize numeral (c :: ds) = n
  rw [afterWhole.eq_def]
  split
  case h_1 => rfl
  case h_2 => rfl
  case h_3 => rfl
  case h_4 => simp
  case h_5 hdone _ _ => exact absurd rfl hdone

/-- An integer is read exactly. -/
theorem readUnsigned?_digits (negative : Bool) {ds : List Char} (hds : IsWhole ds)
    (hlt : numeral ds < significandBound)
    (hleast : negative = true → numeral ds ≠ 0 ∧ leastInteger ≤ -(numeral ds : Int)) :
    readUnsigned? negative ds = some (.integer (if negative then -(numeral ds : Int) else numeral ds), []) := by
  have hread := readUnsigned?_append negative hds hlt noDigit_nil
  rw [List.append_nil] at hread
  rw [hread, afterWhole.eq_def]
  refine if_neg ?_
  rintro ⟨rfl, hzero | hless⟩
  · exact (hleast rfl).1 hzero
  · exact not_lt.mpr (hleast rfl).2 hless

/-- Of digits with a point, the digits are read, to be scaled down. -/
theorem readUnsigned?_pointed (negative : Bool) {n s : Nat} (hn : n < significandBound) (hs : 0 < s) :
    readUnsigned? negative (Decimal.pointed (Decimal.digits n) s) =
      (doubleOfParts negative n (-s)).map fun f => (.double f, []) := by
  obtain ⟨whole, fraction, htext, hwhole, hfraction, hlength, hvalue⟩ := exists_pointed n hs
  rw [numeral_append, hlength] at hvalue
  have hlt : numeral whole < significandBound :=
    lt_of_le_of_lt ((Nat.le_mul_of_pos_right _ (by positivity)).trans (Nat.le_add_right ..)) (hvalue ▸ hn)
  have hfits : numeral whole * 10 ^ fraction.length + numeral fraction < significandBound := by
    rwa [hlength, hvalue]
  have htaken := takeDigits_append hfraction.digits noDigit_nil hfits
  have hhead := hfraction.head?_any []
  rw [List.append_nil] at htaken hhead
  rw [hlength, hvalue] at htaken
  rw [htext, readUnsigned?_append negative hwhole hlt (by simp [NoDigit]), afterWhole, readFraction?, if_pos hhead,
    htaken]
  simp [readScaled?, Option.map_map, Function.comp_def]

theorem exponentDigits_eq {ds : List Char} (h : (numeral ds : Int) ≤ exponentBound) :
    exponentDigits ds = some (numeral ds : Int) := by
  have hfold (n : Nat) : ds.foldl (fun (n : Int) c => n * 10 + digitValue c) n =
      ((ds.foldl (fun n c => n * 10 + digitValue c) n : Nat) : Int) :=
    List.foldl_hom (Nat.cast : Nat → Int) fun n c => by push_cast; rfl
  have hvalue := hfold 0
  rw [show ds.foldl (fun n c => n * 10 + digitValue c) 0 = numeral ds by
    simpa [digitValue] using foldl_digits ds 0] at hvalue
  rw [exponentDigits]
  simp only [Nat.cast_zero] at hvalue
  rw [hvalue, if_pos h]

/-- Of digits with an exponent, the digits are read, to be scaled up. -/
theorem readUnsigned?_scientific (negative : Bool) {n k : Nat} (hn : n < significandBound)
    (hk : (k : Int) ≤ exponentBound) :
    readUnsigned? negative (Decimal.digits n ++ 'e' :: Decimal.exponentText k) =
      (doubleOfParts negative n k).map fun f => (.double f, []) := by
  have hexponent : Decimal.exponentText k = '+' :: Decimal.digits k := by
    rw [Decimal.exponentText, if_neg (by omega), Int.natAbs_natCast]
  have hdigits := isNumeral_digits k
  have hclamp : clampExponent k = k := by
    have hbound : (0 : Int) ≤ exponentBound := by decide
    rw [clampExponent, min_eq_right hk, max_eq_right (by omega)]
  rw [hexponent, readUnsigned?_append negative (isWhole_digits n) (by rwa [numeral_digits]) (by simp [NoDigit]),
    numeral_digits, afterWhole, readExponent?]
  simp [hdigits.takeWhile, hdigits.dropWhile, hdigits.nonempty, exponentDigits_eq, numeral_digits, hk, hclamp,
    Option.map_map, Function.comp_def]

theorem readNumber?_signed (negative : Bool) {cs : List Char} (h : cs.head?.any Char.isDigit = true) :
    readNumber? (Decimal.signed negative cs) = readUnsigned? negative cs := by
  cases negative with
  | true => rfl
  | false =>
    cases cs with
    | nil => simp at h
    | cons c cs =>
      have hc : c ≠ '-' := fun hc => by
        rw [hc, List.head?_cons, Option.any_some] at h
        exact absurd h (by decide)
      rw [Decimal.signed, if_neg (by decide), readNumber?]
      simp [hc]

end Json

/-! ## Decimals that are read -/

theorem any_eq_any_toList (s : String) (p : Char → Bool) : s.any p = s.toList.any p := String.contains_bool_eq

namespace Decimal

theorem mem_signed {negative : Bool} {cs : List Char} {c : Char} (hc : c ∈ signed negative cs) :
    c = '-' ∨ c ∈ cs := by
  cases negative with
  | true => exact List.mem_cons.mp hc
  | false => exact .inr hc

/-- The characters of a text with a point. -/
theorem of_mem_pointed {negative : Bool} {n s : Nat} (hs : 0 < s) {c : Char}
    (hc : c ∈ signed negative (pointed (digits n) s)) : c.isDigit = true ∨ c = '-' ∨ c = '.' := by
  obtain ⟨whole, fraction, htext, hwhole, hfraction, -⟩ := Json.exists_pointed n hs
  rw [htext] at hc
  rcases mem_signed hc with rfl | hc
  · exact .inr (.inl rfl)
  rcases List.mem_append.mp hc with hc | hc
  · exact .inl (hwhole.digits c hc)
  rcases List.mem_cons.mp hc with rfl | hc
  · exact .inr (.inr rfl)
  · exact .inl (hfraction.digits c hc)

theorem separatedValue?_signed (negative : Bool) {ds : List Char} (h : IsNumeral ds) :
    separatedValue? (signed negative ds) = some (if negative then -(numeral ds : Int) else numeral ds) := by
  have hvalue := digitsValue?_eq_some_iff.mpr ⟨h, rfl⟩
  have hfilter := h.filter_ne (c := '_') rfl
  obtain ⟨c, rest, rfl⟩ := List.exists_cons_of_ne_nil h.nonempty
  have hne {d : Char} (hd : d.isDigit = false) : c ≠ d := fun heq => h.not_mem hd (heq ▸ List.mem_cons_self)
  have hunder := hne (d := '_') rfl
  have hplain : rest.filter (fun d => !decide (d = '_')) = rest := by simpa [hunder] using hfilter
  cases negative <;>
    simp [separatedValue?, signed, hne (d := '+') rfl, hne (d := '-') rfl, hunder, hplain, hvalue]

/-- Digits with a point are read as the decimal with those digits. -/
theorem ofText?_pointed (negative : Bool) (n : Nat) {s : Nat} (hs : 0 < s) (hlt : s < 2 ^ 63) :
    ofText? (String.ofList (signed negative (pointed (digits n) s))) =
      some ⟨if negative then -(n : Int) else n, s⟩ := by
  have hexponent : ∀ c ∈ signed negative (pointed (digits n) s), (!(c == 'e' || c == 'E')) = true := by
    intro c hc
    rcases of_mem_pointed hs hc with hdigit | rfl | rfl
    · have hne {d : Char} (hd : d.isDigit = false) : c ≠ d := fun heq => by simp [heq, hd] at hdigit
      simp [hne (d := 'e') rfl, hne (d := 'E') rfl]
    · rfl
    · rfl
  obtain ⟨whole, fraction, htext, hwhole, hfraction, hlength, hvalue⟩ := Json.exists_pointed n hs
  have hpoint : ∀ c ∈ signed negative whole, decide (c ≠ '.') = true := fun c hc => by
    rcases mem_signed hc with rfl | hc
    · rfl
    · exact decide_eq_true fun heq => hwhole.not_mem rfl (heq ▸ hc)
  have hsigned (rest : List Char) : signed negative (whole ++ rest) = signed negative whole ++ rest := by
    cases negative <;> rfl
  have hlead : (signed negative whole ++ '.' :: fraction).takeWhile (· ≠ '.') = signed negative whole := by
    rw [List.takeWhile_append_of_pos hpoint, List.takeWhile_cons_of_neg (by simp), List.append_nil]
  have htrail : (signed negative whole ++ '.' :: fraction).dropWhile (· ≠ '.') = '.' :: fraction := by
    rw [List.dropWhile_append_of_pos hpoint, List.dropWhile_cons_of_neg (by simp)]
  have hdigits : IsNumeral (whole ++ fraction) :=
    ⟨by simp [hwhole.nonempty], fun c hc => (List.mem_append.mp hc).elim (hwhole.digits c) (hfraction.digits c)⟩
  have hseparated := separatedValue?_signed negative hdigits
  rw [hvalue, hsigned] at hseparated
  have hnone : -(Power.two 127 : Int) ≤ 0 ∧ (0 : Int) < Power.two 127 := by
    rw [Power.two_eq]
    norm_num
  have hscale : -(Power.two 63 : Int) ≤ s - 0 ∧ (s - 0 : Int) < Power.two 63 := by
    rw [Power.two_eq]
    push_cast
    omega
  simp only [ofText?, String.toList_ofList, List.takeWhile_eq_self_iff.mpr hexponent,
    List.dropWhile_eq_nil_iff.mpr hexponent]
  rw [htext, hsigned, hlead, htrail, List.drop_one, List.tail_cons, hfraction.filter_ne rfl, hlength]
  refine bind_eq_some rfl (bind_eq_some (if_pos hnone) (bind_eq_some hseparated (bind_eq_some (if_pos hscale) ?_)))
  rw [sub_zero]
  rfl

end Decimal
end HybridQuery
