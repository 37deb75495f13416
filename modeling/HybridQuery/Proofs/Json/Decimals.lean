import HybridQuery.Item.Printed
import HybridQuery.Proofs.Doubles.Shortest
import HybridQuery.Proofs.Division.Exact
import HybridQuery.Proofs.Equality
import HybridQuery.Proofs.Json.Numerals

/-!
# Decimals through JSON

The JSON form of a decimal is the number that its normalized text reads as. An integer of 64 bits is read exactly.
Anything else becomes a double, which is the nearest one if the decimal has few digits; its shortest digits are then
those of the decimal again.

* `Decimal.IsShort`: few digits, not far from an integer.
* `Double.doubleOfParts_of_isShort`, `Double.text?_of_isShort`: the double that is read of them, and its text.
* `Decimal.IsKept`, `Item.quantity?_reread`: the decimals that are read back as the number they are.
-/

namespace HybridQuery

/-! ## Normal form -/

namespace Decimal

theorem value_stripZeros (fuel : Nat) (c s : Int) : (stripZeros fuel c s).value = (⟨c, s⟩ : Decimal).value := by
  induction fuel generalizing c s with
  | zero => rfl
  | succ fuel ih =>
    rw [stripZeros]
    split_ifs with hten
    · obtain ⟨q, rfl⟩ := Int.dvd_of_emod_eq_zero hten
      rw [ih, Int.mul_ediv_cancel_left _ (by decide)]
      simp only [value]
      rw [neg_sub, sub_eq_add_neg, zpow_add₀ (by norm_num), zpow_one]
      push_cast
      ring
    · rfl

theorem stripZeros_ends {fuel : Nat} {c : Int} (hc : c ≠ 0) (hfuel : c.natAbs < 10 ^ fuel) (s : Int) :
    (stripZeros fuel c s).coefficient % 10 ≠ 0 := by
  induction fuel generalizing c s with
  | zero => omega
  | succ fuel ih =>
    rw [stripZeros]
    split_ifs with hten
    · refine ih (by omega) ?_ _
      rw [pow_succ] at hfuel
      omega
    · exact hten

theorem value_normalized (d : Decimal) : d.normalized.value = d.value := by
  rw [normalized]
  split_ifs with hzero
  · rw [value_zero hzero, value_zero rfl]
  · exact value_stripZeros _ _ _

/-- A number in normal form is zero or has no zero at the end. -/
theorem normalized_ends {d : Decimal} (h : d.value ≠ 0) : d.normalized.coefficient % 10 ≠ 0 := by
  have hne : d.coefficient ≠ 0 := fun hzero => h (value_zero hzero)
  rw [normalized, if_neg hne]
  exact stripZeros_ends hne (lt_ten_pow_digitCount _) _

theorem normalized_of_zero {d : Decimal} (h : d.value = 0) : d.normalized = zero := by
  rw [normalized, if_pos]
  by_contra hne
  rcases lt_or_gt_of_ne hne with hlt | hgt
  · exact (value_neg hlt).ne h
  · exact (value_pos hgt).ne' h

/-- An integer in normal form is written without a fraction. -/
theorem scale_nonpos_of_integer {d : Decimal} {n : Int} (hn : d.value = n) (hends : d.coefficient % 10 ≠ 0) :
    d.scale ≤ 0 := by
  by_contra hpos
  rw [value_of_nonneg (by omega), div_eq_iff (by positivity)] at hn
  have hcoefficient : d.coefficient = n * 10 ^ d.scale.toNat := by exact_mod_cast hn
  obtain ⟨s, hs⟩ := Nat.exists_eq_add_of_lt (show 0 < d.scale.toNat by omega)
  rw [hs, pow_succ, ← mul_assoc] at hcoefficient
  omega

/-- Of all ways to write a number with a fraction, the normal form has the fewest digits after the point. -/
theorem exists_factor {d : Decimal} {c : Int} {s : Nat} (hvalue : d.value = c / 10 ^ s)
    (hends : d.coefficient % 10 ≠ 0) (hpos : 0 ≤ d.scale) :
    c = d.coefficient * 10 ^ (s - d.scale.toNat) := by
  rw [value_of_nonneg hpos, div_eq_div_iff (by positivity) (by positivity)] at hvalue
  have hcross : d.coefficient * 10 ^ s = c * 10 ^ d.scale.toNat := by exact_mod_cast hvalue
  rcases le_or_gt d.scale.toNat s with hle | hgt
  · obtain ⟨k, rfl⟩ := Nat.exists_eq_add_of_le hle
    rw [Nat.add_sub_cancel_left]
    rw [pow_add, mul_comm (10 ^ d.scale.toNat), ← mul_assoc] at hcross
    exact (mul_right_cancel₀ (by positivity) hcross).symm
  · obtain ⟨k, hk⟩ := Nat.exists_eq_add_of_lt hgt
    rw [hk, show s + k + 1 = k + 1 + s by omega, pow_add, ← mul_assoc] at hcross
    have hcoefficient := mul_right_cancel₀ (show (10 : Int) ^ s ≠ 0 by positivity) hcross
    rw [pow_succ, ← mul_assoc] at hcoefficient
    omega

/-- A coefficient is its sign with its digits. -/
theorem cast_coefficient (d : Decimal) :
    (d.coefficient : ℚ) = (if decide (d.coefficient < 0) then -1 else 1) * d.coefficient.natAbs := by
  rw [Nat.cast_natAbs]
  split_ifs with hneg
  · rw [abs_of_neg (decide_eq_true_eq.mp hneg)]
    push_cast
    ring
  · rw [abs_of_nonneg (not_lt.mp (mt decide_eq_true hneg)), one_mul]

/-! ## Decimals of few digits -/

/-- An integer of 64 bits, with a sign or without, or a number of at most fifteen significant digits that is not
below `0.00001`. -/
def IsKept (d : Decimal) : Prop :=
  (∃ n : Int, d.value = n ∧ -2 ^ 63 ≤ n ∧ n < 2 ^ 64) ∨
    ∃ (c : Int) (s : Nat), d.value = c / 10 ^ s ∧ |c| < 10 ^ 15 ∧ 1 / 10 ^ 5 ≤ |d.value|

/-- A number of at most fifteen digits, the last of them no zero, that a power of ten up to `10 ^ 22` takes to an
integer or back. -/
structure IsShort (d : Decimal) : Prop where
  ends : d.coefficient % 10 ≠ 0
  digits : d.coefficient.natAbs < 10 ^ 15
  low : -22 ≤ d.scale
  high : d.scale ≤ 22

/-- Of an integer of 64 bits, more than fifteen zeros at the end leave few digits. -/
theorem isShort_of_large {d : Decimal} (hends : d.coefficient % 10 ≠ 0) (hlarge : d.scale < -15)
    (hbound : d.coefficient.natAbs * 10 ^ (-d.scale).toNat < 2 ^ 64) :
    d.IsShort ∧ d.coefficient.natAbs * 5 ^ (-d.scale).toNat < 2 ^ 53 := by
  have hsixteen : 16 ≤ (-d.scale).toNat := by omega
  refine ⟨⟨hends, ?_, ?_, by omega⟩, ?_⟩
  · have := Nat.mul_le_mul_left d.coefficient.natAbs (Nat.pow_le_pow_right (by decide : 0 < 10) hsixteen)
    omega
  · have hten : 10 ^ (-d.scale).toNat < 10 ^ 20 :=
      calc 10 ^ (-d.scale).toNat ≤ d.coefficient.natAbs * 10 ^ (-d.scale).toNat :=
            Nat.le_mul_of_pos_left _ (by omega)
        _ < 2 ^ 64 := hbound
        _ ≤ 10 ^ 20 := by norm_num
    have := (Nat.pow_lt_pow_iff_right (by decide)).mp hten
    omega
  · have hsplit : d.coefficient.natAbs * 10 ^ (-d.scale).toNat =
        d.coefficient.natAbs * 5 ^ (-d.scale).toNat * 2 ^ (-d.scale).toNat := by
      rw [mul_assoc, ← mul_pow]
      rfl
    have := Nat.mul_le_mul_left (d.coefficient.natAbs * 5 ^ (-d.scale).toNat)
      (Nat.pow_le_pow_right (by decide : 0 < 2) hsixteen)
    omega

/-- A number of fifteen digits in normal form that is not below `0.00001` has few zeros after its point. -/
theorem isShort_of_fraction {d : Decimal} {c : Int} {s : Nat} (hvalue : d.value = c / 10 ^ s)
    (hc : |c| < 10 ^ 15) (hlarge : 1 / 10 ^ 5 ≤ |d.value|) (hends : d.coefficient % 10 ≠ 0) (hpos : 0 ≤ d.scale) :
    d.IsShort ∧ d.scale - digitCount d.coefficient.natAbs ≤ 4 := by
  have hfactor := congrArg Int.natAbs (exists_factor hvalue hends hpos)
  rw [Int.natAbs_mul, Int.natAbs_pow] at hfactor
  have hdigits : d.coefficient.natAbs < 10 ^ 15 := by
    have := Nat.le_mul_of_pos_right d.coefficient.natAbs
      (show 0 < (10 : Int).natAbs ^ (s - d.scale.toNat) from Nat.pow_pos (by decide))
    rw [Int.abs_eq_natAbs] at hc
    omega
  have hcount : d.scale.toNat < 5 + digitCount d.coefficient.natAbs := by
    have hzeros : 10 ^ d.scale.toNat ≤ d.coefficient.natAbs * 10 ^ 5 := by
      rw [value_of_nonneg hpos, abs_div, abs_of_pos (show (0 : ℚ) < 10 ^ d.scale.toNat by positivity),
        div_le_div_iff₀ (by positivity) (by positivity), one_mul, ← Int.cast_abs, ← Nat.cast_natAbs] at hlarge
      exact_mod_cast hlarge
    refine (Nat.pow_lt_pow_iff_right (show 1 < 10 by decide)).mp ?_
    calc 10 ^ d.scale.toNat ≤ d.coefficient.natAbs * 10 ^ 5 := hzeros
      _ < 10 ^ digitCount d.coefficient.natAbs * 10 ^ 5 :=
        Nat.mul_lt_mul_of_pos_right (lt_ten_pow_digitCount _) (by decide)
      _ = 10 ^ (5 + digitCount d.coefficient.natAbs) := by rw [← pow_add, add_comm]
  have hfifteen := (digitCount_le_iff (k := 15) (by decide)).mpr hdigits
  exact ⟨⟨hends, hdigits, by omega, by omega⟩, by omega⟩

end Decimal

namespace Double

theorem value_exactDecimal (negative : Bool) (m : Nat) (e : Int) :
    (exactDecimal negative m e).value = (if negative then -1 else 1) * (m * 2 ^ e) := by
  rcases le_or_gt 0 e with hnonneg | hneg
  · have hpower : (2 : ℚ) ^ e = 2 ^ e.toNat := by rw [← zpow_natCast, Int.toNat_of_nonneg hnonneg]
    rw [exactDecimal_of_nonneg negative m hnonneg, hpower]
    simp [Decimal.value]
  · have hpower : (5 : ℚ) ^ (-e).toNat * 10 ^ e = 2 ^ e := by
      rw [show (10 : ℚ) = 5 * 2 by norm_num, mul_zpow, ← mul_assoc, ← zpow_natCast, ← zpow_add₀ (by norm_num),
        show ((-e).toNat : Int) + e = 0 by omega, zpow_zero, one_mul]
    rw [exactDecimal_of_neg negative m hneg, Decimal.value, neg_neg, ← hpower]
    push_cast
    ring

/-- A fraction of numbers of moderate size rounds to a double that is neither tiny nor infinite. -/
theorem nearestBits_moderate {N D : Nat} (hN : 0 < N) (hN' : N < 10 ^ 37) (hD : 0 < D) (hD' : D ≤ 10 ^ 22) :
    2 ^ 52 * D ≤ N * Power.two (-leastExponent).toNat ∧ nearestBits N D < infiniteBits := by
  constructor
  · have hpower : 2 ^ 126 ≤ 2 ^ (-leastExponent).toNat := Nat.pow_le_pow_right (by decide) (by decide)
    rw [← Power.two_eq (-leastExponent).toNat] at hpower
    generalize Power.two (-leastExponent).toNat = p at *
    calc 2 ^ 52 * D ≤ 2 ^ 52 * 10 ^ 22 := Nat.mul_le_mul_left _ hD'
      _ ≤ 1 * p := by omega
      _ ≤ N * p := Nat.mul_le_mul_right _ hN
  · refine lt_of_le_of_ne (Nat.min_le_right ..) fun heq => ?_
    have hover := (nearestBits_eq_infiniteBits_iff hD).mp heq
    have hpower (k : Nat) (hk : 123 ≤ k) : 10 ^ 37 ≤ 2 ^ k :=
      (show 10 ^ 37 ≤ 2 ^ 123 by norm_num).trans (Nat.pow_le_pow_right (by decide) hk)
    have hpower := hpower 970 (by decide)
    rw [← Power.two_eq 970] at hpower
    have hsplit : Power.two 1024 = 2 ^ 54 * Power.two 970 := by
      rw [Power.two_eq, Power.two_eq, ← pow_add]
    rw [hsplit, mul_assoc] at hover
    have := Nat.le_mul_of_pos_right (Power.two 970) hD
    generalize Power.two 970 * D = q at *
    omega

section
variable {d : Decimal} (h : d.IsShort)
include h

theorem ofDecimal_of_isShort : ofDecimal d = ofSize (d.coefficient < 0)
    (nearestBits (d.coefficient.natAbs * 10 ^ (-d.scale).toNat) (10 ^ d.scale.toNat)) := by
  have hends := h.ends
  have hlow := h.low
  have hhigh := h.high
  have hcount := (Decimal.digitCount_le_iff (k := 15) (by decide)).mpr h.digits
  have hmagnitude : d.magnitude = Decimal.digitCount d.coefficient.natAbs - d.scale := rfl
  have hrange : decimalRange = 400 := rfl
  rw [ofDecimal, if_neg (by omega), if_neg (by omega), Power.ten_eq, Power.ten_eq]

theorem moderate_of_isShort :
    2 ^ 52 * 10 ^ d.scale.toNat ≤
        d.coefficient.natAbs * 10 ^ (-d.scale).toNat * Power.two (-leastExponent).toNat ∧
      nearestBits (d.coefficient.natAbs * 10 ^ (-d.scale).toNat) (10 ^ d.scale.toNat) < infiniteBits := by
  have hends := h.ends
  have hlow := h.low
  have hhigh := h.high
  refine nearestBits_moderate (Nat.mul_pos (by omega) (by positivity)) ?_ (by positivity)
    (Nat.pow_le_pow_right (by decide) (by omega))
  calc d.coefficient.natAbs * 10 ^ (-d.scale).toNat < 10 ^ 15 * 10 ^ (-d.scale).toNat :=
        Nat.mul_lt_mul_of_pos_right h.digits (by positivity)
    _ ≤ 10 ^ 15 * 10 ^ 22 := Nat.mul_le_mul_left _ (Nat.pow_le_pow_right (by decide) (by omega))
    _ = 10 ^ 37 := by norm_num

/-- The double that JSON reads of a short decimal is the nearest one, since it rounds once. -/
theorem doubleOfParts_of_isShort :
    Json.doubleOfParts (d.coefficient < 0) d.coefficient.natAbs (-d.scale) = some (ofDecimal d) := by
  have hends := h.ends
  have hlow := h.low
  have hhigh := h.high
  obtain ⟨hfull, hfinite⟩ := moderate_of_isShort h
  have hpos : 0 < d.coefficient.natAbs := by omega
  have hlt : d.coefficient.natAbs < 2 ^ 53 := h.digits.trans (by norm_num)
  have hbound : Json.powerBound = 308 := rfl
  have hlarge := le_nearestBits (by positivity) hfull
  have hscaled : Json.scaleByTen 8 d.coefficient.natAbs.toUInt64.toFloat (-d.scale) = some (ofSize false
      (nearestBits (d.coefficient.natAbs * 10 ^ (-d.scale).toNat) (10 ^ d.scale.toNat))) := by
    have hisFinite : isFinite (ofSize false (nearestBits (d.coefficient.natAbs * 10 ^ (-d.scale).toNat)
        (10 ^ d.scale.toNat))) = true := by
      rw [isFinite, (isNormal_ofSize false hlarge hfinite).denote_eq]
    rw [Json.scaleByTen, if_pos (by omega)]
    rcases le_or_gt 0 (-d.scale) with hup | hdown
    · have hproduct := toFloat_mul_powerOfTen hpos hlt (k := (-d.scale).toNat) (by omega)
      rw [show d.scale.toNat = 0 by omega, pow_zero] at hisFinite ⊢
      rw [if_pos hup, show (-d.scale).natAbs = (-d.scale).toNat by omega, hproduct]
      exact if_pos hisFinite
    · have hquotient := toFloat_div_powerOfTen hpos hlt (k := d.scale.toNat) (by omega)
      rw [if_neg (by omega), show (-d.scale).natAbs = d.scale.toNat by omega, hquotient,
        show (-d.scale).toNat = 0 by omega, pow_zero, mul_one]
  rw [Json.doubleOfParts, hscaled, Option.map_some, ofDecimal_of_isShort h]
  split_ifs with hnegative
  · rw [neg_ofSize false hlarge hfinite, hnegative]
    rfl
  · rw [Bool.not_eq_true] at hnegative
    rw [hnegative]

/-- The text of the double nearest to a short decimal has its digits. -/
theorem text?_of_isShort : text? (ofDecimal d) = some (finiteText (d.coefficient < 0) d) := by
  obtain ⟨hfull, hfinite⟩ := moderate_of_isShort h
  have hends := h.ends
  have hhigh := h.high
  have hvalue : ((d.coefficient.natAbs * 10 ^ (-d.scale).toNat : Nat) : ℚ) / (10 ^ d.scale.toNat : Nat) =
      d.coefficient.natAbs * 10 ^ (-d.scale) := by
    rw [zpow_eq_div (by norm_num), neg_neg]
    push_cast
    ring
  rw [ofDecimal_of_isShort h, text?_nearest _ (by positivity) hfull hfinite hvalue h.digits (by omega) (by omega)]
  rfl

/-- The double nearest to a short integer is that integer, if its odd part fits a mantissa. -/
theorem quantity_of_isShort (hscale : d.scale ≤ 0)
    (hodd : d.coefficient.natAbs * 5 ^ (-d.scale).toNat < 2 ^ 53) : quantity (ofDecimal d) = .inl d.value := by
  have hends := h.ends
  have hlow := h.low
  obtain ⟨m, hm, hvalue⟩ := isNormal_nearestBits (d.coefficient < 0) (j := (-d.scale).toNat)
    (Nat.mul_pos (by omega) (by positivity)) hodd (by omega)
  have hbits : nearestBits (d.coefficient.natAbs * 10 ^ (-d.scale).toNat) (10 ^ d.scale.toNat) =
      nearestBits (d.coefficient.natAbs * 5 ^ (-d.scale).toNat * 2 ^ (-d.scale).toNat) 1 := by
    rw [show d.scale.toNat = 0 by omega, pow_zero, mul_assoc, ← mul_pow]
    rfl
  rw [quantity, ofDecimal_of_isShort h, hbits, hm.denote_eq]
  dsimp only
  have hpower : (10 : ℚ) ^ (-d.scale) = 5 ^ (-d.scale).toNat * 2 ^ (-d.scale).toNat := by
    rw [← mul_pow, ← zpow_natCast, Int.toNat_of_nonneg (by omega)]
    norm_num
  rw [value_exactDecimal, hvalue, Decimal.value, hpower, Decimal.cast_coefficient]
  push_cast
  ring_nf

end

end Double

/-! ## Texts of decimals -/

namespace Decimal
variable {d : Decimal}

theorem text_of_fraction (hpos : 0 < d.scale) (hzeros : d.scale - digitCount d.coefficient.natAbs ≤ 5) :
    d.text = String.ofList
      (signed (d.coefficient < 0) (pointed (digits d.coefficient.natAbs) d.scale.toNat)) := by
  have hcount : (digits d.coefficient.natAbs).length = digitCount d.coefficient.natAbs := rfl
  rw [text]
  dsimp only
  rw [if_neg (by rw [leadingZeroLimit]; omega), if_neg (by rw [trailingZeroLimit]; omega), if_neg (by omega)]

theorem text_of_large (hscale : d.scale < -15) : d.text = String.ofList
    (signed (d.coefficient < 0) (digits d.coefficient.natAbs ++ 'e' :: exponentText (-d.scale))) := by
  rw [text]
  dsimp only
  rw [if_neg (by rw [leadingZeroLimit]; omega), if_pos (by rw [trailingZeroLimit]; omega)]

theorem text_of_integer (hlow : -15 ≤ d.scale) (hhigh : d.scale ≤ 0) : d.text = String.ofList
    (signed (d.coefficient < 0) (digits d.coefficient.natAbs ++ List.replicate (-d.scale).toNat '0')) := by
  rw [text]
  dsimp only
  rw [if_neg (by rw [leadingZeroLimit]; omega), if_neg (by rw [trailingZeroLimit]; omega), if_pos hhigh]

end Decimal

namespace Double
variable {d : Decimal}

theorem finiteText_of_fraction (negative : Bool) (hpos : 0 < d.scale)
    (hdigits : Decimal.digitCount d.coefficient.natAbs ≤ 15)
    (hzeros : d.scale - Decimal.digitCount d.coefficient.natAbs ≤ 4) : finiteText negative d =
      String.ofList (Decimal.signed negative
        (Decimal.pointed (Decimal.digits d.coefficient.natAbs) d.scale.toNat)) := by
  have hcount : (Decimal.digits d.coefficient.natAbs).length = Decimal.digitCount d.coefficient.natAbs := rfl
  rw [finiteText]
  dsimp only
  rw [if_pos (by omega), if_neg (by omega)]

theorem mem_finiteText_of_large (negative : Bool) (hscale : d.scale < -15) :
    'e' ∈ (finiteText negative d).toList := by
  have hcount := List.length_pos_iff.mpr (isNumeral_digits d.coefficient.natAbs).nonempty
  rw [finiteText, String.toList_ofList]
  dsimp only
  rw [if_neg (by omega), Decimal.signed]
  split_ifs <;> simp

end Double

namespace Item
open Double (ofDecimal)

section
variable {d : Decimal} (h : d.IsShort)
include h

theorem significand_lt : d.coefficient.natAbs < Json.significandBound := by
  rw [Json.significandBound, Power.two_eq]
  exact h.digits.trans (by norm_num)

theorem readNumber?_of_fraction (hpos : 0 < d.scale)
    (hzeros : d.scale - Decimal.digitCount d.coefficient.natAbs ≤ 5) :
    Json.readNumber? d.text.toList = some (.double (ofDecimal d), []) := by
  obtain ⟨whole, fraction, htext, hwhole, -⟩ := Json.exists_pointed d.coefficient.natAbs
    (s := d.scale.toNat) (by omega)
  have hread := Json.readUnsigned?_pointed (d.coefficient < 0) (significand_lt h) (s := d.scale.toNat) (by omega)
  rw [Int.toNat_of_nonneg hpos.le, Double.doubleOfParts_of_isShort h] at hread
  rw [Decimal.text_of_fraction hpos hzeros, String.toList_ofList,
    Json.readNumber?_signed _ (htext ▸ hwhole.head?_any _), hread, Option.map_some]

theorem readNumber?_of_large (hscale : d.scale < -15) :
    Json.readNumber? d.text.toList = some (.double (ofDecimal d), []) := by
  have hlow := h.low
  have hbound : Json.exponentBound = 2147483647 := rfl
  have hread := Json.readUnsigned?_scientific (d.coefficient < 0) (significand_lt h) (k := (-d.scale).toNat)
    (by omega)
  rw [Int.toNat_of_nonneg (by omega), Double.doubleOfParts_of_isShort h] at hread
  rw [Decimal.text_of_large hscale, String.toList_ofList,
    Json.readNumber?_signed _ ((isNumeral_digits _).head?_any _), hread, Option.map_some]

/-- The double of a short fraction is read back as the fraction. -/
theorem ofDouble_of_fraction (hpos : 0 < d.scale)
    (hzeros : d.scale - Decimal.digitCount d.coefficient.natAbs ≤ 4) :
    ofDouble (ofDecimal d) = .decimal d := by
  have hhigh := h.high
  have hdigits := (Decimal.digitCount_le_iff (k := 15) (by decide)).mpr h.digits
  have hplain : (Double.finiteText (d.coefficient < 0) d).any (· == 'e') = false := by
    rw [Double.finiteText_of_fraction _ hpos hdigits hzeros, any_eq_any_toList, String.toList_ofList,
      List.any_eq_false]
    intro c hc
    rcases Decimal.of_mem_pointed (by omega) hc with hdigit | rfl | rfl
    · exact fun heq => by simp [eq_of_beq heq] at hdigit
    · decide
    · decide
  have hread := Decimal.ofText?_pointed (d.coefficient < 0) d.coefficient.natAbs (s := d.scale.toNat) (by omega)
    (by omega)
  rw [ofDouble, Double.text?_of_isShort h]
  dsimp only
  have hcoefficient : (if decide (d.coefficient < 0) = true then -(d.coefficient.natAbs : Int)
      else d.coefficient.natAbs) = d.coefficient := by
    simp only [decide_eq_true_eq]
    split_ifs <;> omega
  rw [hplain, Double.finiteText_of_fraction _ hpos hdigits hzeros, hread, hcoefficient,
    Int.toNat_of_nonneg hpos.le]
  rfl

/-- The double of a short integer with many zeros stays a double. -/
theorem ofDouble_of_large (hscale : d.scale < -15) : ofDouble (ofDecimal d) = .double (ofDecimal d) := by
  have hmem := Double.mem_finiteText_of_large (d.coefficient < 0) hscale
  have hany : (Double.finiteText (d.coefficient < 0) d).any (· == 'e') = true := by
    rw [any_eq_any_toList, List.any_eq_true]
    exact ⟨'e', hmem, rfl⟩
  rw [ofDouble, Double.text?_of_isShort h]
  dsimp only
  rw [if_pos hany]

end

/-! ## Decimals that are kept -/

/-- What the JSON form of a decimal is read back as. -/
def reread (d : Decimal) : Item := ofJson (decimalJson d)

theorem quantity?_ofInteger {n : Int} (h : -2 ^ 63 ≤ n) : (ofInteger n).quantity? = some (.inl n) := by
  rw [ofInteger, Power.two_eq]
  split_ifs with hlt
  · rw [quantity?, toInt_ofInt ⟨h, by exact_mod_cast hlt⟩]
  · rw [quantity?, Decimal.value_ofInt]

/-- An integer with at most fifteen zeros at its end is written out, and read as an integer. -/
theorem readNumber?_of_integer {d : Decimal} (hlow : -15 ≤ d.scale) (hhigh : d.scale ≤ 0) {n : Int}
    (hn : n = d.coefficient * 10 ^ (-d.scale).toNat) (hne : n ≠ 0) (hleast : -2 ^ 63 ≤ n)
    (hgreatest : n < 2 ^ 64) : Json.readNumber? d.text.toList = some (.integer n, []) := by
  have hcoefficient : d.coefficient.natAbs ≠ 0 := fun hzero => by
    rw [Int.natAbs_eq_zero.mp hzero, zero_mul] at hn
    exact hne hn
  obtain ⟨hwhole, hnumeral⟩ := Json.isWhole_zeros hcoefficient (-d.scale).toNat
  have hsign : d.coefficient < 0 ↔ n < 0 := by
    rw [hn]
    exact ⟨fun h => mul_neg_of_neg_of_pos h (by positivity), fun h => neg_of_mul_neg_left h (by positivity)⟩
  have habs : n.natAbs = d.coefficient.natAbs * 10 ^ (-d.scale).toNat := by
    rw [hn, Int.natAbs_mul, Int.natAbs_pow]
    rfl
  rw [← habs] at hnumeral
  have hsignificand : Json.significandBound = 2 ^ 64 := Power.two_eq 64
  have hleastInteger : Json.leastInteger = -2 ^ 63 := by
    rw [Json.leastInteger, Power.two_eq]
    rfl
  rw [Decimal.text_of_integer hlow hhigh, String.toList_ofList,
    Json.readNumber?_signed _ ((isNumeral_digits _).head?_any _), Json.readUnsigned?_digits _ hwhole (by omega)
    (fun hneg => ⟨by omega, by have := hsign.mp (of_decide_eq_true hneg); omega⟩), hnumeral]
  simp only [decide_eq_true_eq, hsign]
  split_ifs with hneg
  · rw [Int.ofNat_natAbs_of_nonpos hneg.le, neg_neg]
  · rw [Int.natAbs_of_nonneg (not_lt.mp hneg)]

theorem decimalJson_of_read {d : Decimal} {json : Json}
    (h : Json.readNumber? d.normalized.text.toList = some (json, [])) : decimalJson d = json := by
  rw [decimalJson, h]

/-- An integer of 64 bits is kept: as an integer, or with many zeros at its end as an exact double. -/
theorem quantity?_reread_integer {d : Decimal} {n : Int} (hn : d.value = n) (hleast : -2 ^ 63 ≤ n)
    (hgreatest : n < 2 ^ 64) : (reread d).quantity? = some (.inl n) := by
  rcases eq_or_ne n 0 with rfl | hne
  · have hread : Json.readNumber? d.normalized.text.toList = some (.integer 0, []) := by
      rw [Decimal.normalized_of_zero (by rw [hn, Int.cast_zero])]
      rfl
    rw [reread, decimalJson_of_read hread, ofJson]
    exact quantity?_ofInteger hleast
  have hends := Decimal.normalized_ends (d := d) (by rw [hn]; exact_mod_cast hne)
  rw [← Decimal.value_normalized] at hn
  rw [reread, decimalJson]
  generalize d.normalized = e at *
  have hscale := Decimal.scale_nonpos_of_integer hn hends
  have hexact : n = e.coefficient * 10 ^ (-e.scale).toNat := by
    rw [Decimal.value_of_nonpos hscale] at hn
    exact_mod_cast hn.symm
  rcases le_or_gt (-15) e.scale with hlow | hlarge
  · rw [readNumber?_of_integer hlow hscale hexact hne hleast hgreatest]
    exact quantity?_ofInteger hleast
  · have habs : n.natAbs = e.coefficient.natAbs * 10 ^ (-e.scale).toNat := by
      rw [hexact, Int.natAbs_mul, Int.natAbs_pow]
      rfl
    have hbound : e.coefficient.natAbs * 10 ^ (-e.scale).toNat < 2 ^ 64 := by omega
    obtain ⟨hshort, hodd⟩ := Decimal.isShort_of_large hends hlarge hbound
    rw [readNumber?_of_large hshort hlarge]
    dsimp only
    rw [ofJson, ofDouble_of_large hshort hlarge, quantity?, Double.quantity_of_isShort hshort hscale hodd, hn]

/-- A fraction of at most fifteen digits is kept digit by digit. -/
theorem reread_fraction {d : Decimal} {c : Int} {s : Nat} (hvalue : d.value = c / 10 ^ s) (hc : |c| < 10 ^ 15)
    (hlarge : 1 / 10 ^ 5 ≤ |d.value|) (hpos : 0 < d.normalized.scale) : reread d = .decimal d.normalized := by
  have hends := Decimal.normalized_ends (d := d) fun hzero => by
    rw [hzero, abs_zero] at hlarge
    norm_num at hlarge
  rw [← Decimal.value_normalized] at hvalue hlarge
  rw [reread, decimalJson]
  generalize d.normalized = e at *
  obtain ⟨hshort, hzeros⟩ := Decimal.isShort_of_fraction hvalue hc hlarge hends hpos.le
  rw [readNumber?_of_fraction hshort hpos (by omega)]
  exact ofDouble_of_fraction hshort hpos (by omega)

/-- **A decimal that is kept is read back as the same number.** -/
theorem quantity?_reread {d : Decimal} (h : d.IsKept) : (reread d).quantity? = some (.inl d.value) := by
  obtain ⟨n, hn, hleast, hgreatest⟩ | ⟨c, s, hvalue, hc, hlarge⟩ := h
  · rw [hn]
    exact quantity?_reread_integer hn hleast hgreatest
  rcases lt_or_ge 0 d.normalized.scale with hpos | hinteger
  · rw [reread_fraction hvalue hc hlarge hpos, quantity?, Decimal.value_normalized]
  · have hn := Decimal.value_of_nonpos hinteger
    rw [Decimal.value_normalized] at hn
    generalize d.normalized.coefficient * 10 ^ (-d.normalized.scale).toNat = n at hn
    have habs : |n| ≤ |c| := by
      have hle : |(n : ℚ)| ≤ |(c : ℚ)| := by
        rw [← hn, hvalue, abs_div]
        exact div_le_self (abs_nonneg _) ((one_le_pow₀ (by norm_num)).trans (le_abs_self _))
      exact_mod_cast hle
    have hbounds := abs_le.mp (habs.trans hc.le)
    rw [hn]
    exact quantity?_reread_integer hn (by omega) (by omega)

end Item
end HybridQuery
