import HybridQuery.Proofs.Equality
import HybridQuery.Proofs.Rounding

/-!
# Truncated quotients

A long division multiplies the dividend by a power of ten, divides, and rounds half up. It stops early only
where nothing is left, so that a quotient that is rounded has at least as many digits as it may have. Integer
division cuts such a quotient of two decimals to an integer. That it was rounded before makes no difference
unless the quotient is so near to the next integer that it is rounded to it.

* `Decimal.divideNat_eq`: the quotient is rounded half up at a power of ten, and far enough down.
* `towardsZero`: the integer part of a rational number.
* `Decimal.truncate_eq`, `Decimal.value_remainder`: cutting a decimal is exact, and so is the remainder.
* `Decimal.value_divide`: a quotient is exact, or rounded half up at a place where it has all its digits.
* `Decimal.truncate_divide`: what is left of a quotient that was rounded.
-/

namespace HybridQuery
namespace Decimal

/-! ## The digits of a quotient -/

theorem le_mul_pow_upscale {fuel num den : Nat} (h : den ≤ num * 10 ^ fuel) :
    den ≤ num * 10 ^ upscale (fuel + 1) num den := by
  induction fuel generalizing num with
  | zero =>
    have : ¬ num < den := by omega
    simpa [upscale, this] using h
  | succ fuel ih =>
    rw [upscale]
    split
    case isTrue =>
      rw [pow_succ', ← mul_assoc] at h ⊢
      exact ih h
    case isFalse hle => simpa using hle

theorem mul_add_div_of_lt {quotient rest den : Nat} (h : rest < den) :
    (quotient * den + rest) / den = quotient := by
  rw [Nat.add_comm, Nat.add_mul_div_right _ _ (by omega), Nat.div_eq_of_lt h, Nat.zero_add]

/-- Digits are added to a quotient and a remainder by dividing their number times a power of ten; fewer than
allowed only where nothing is left. -/
theorem moreDigits_eq {den : Nat} (fuel quotient : Nat) {rest : Nat} (hrest : rest < den) :
    ∃ n, moreDigits den fuel quotient (rest * 10) =
        ((quotient * den + rest) * 10 ^ n / den, (quotient * den + rest) * 10 ^ n % den * 10, n) ∧
      (n = fuel ∨ den ∣ (quotient * den + rest) * 10 ^ n) := by
  have hnone : (quotient, rest * 10, 0) = ((quotient * den + rest) * 10 ^ 0 / den,
      (quotient * den + rest) * 10 ^ 0 % den * 10, 0) := by
    rw [pow_zero, mul_one, mul_add_div_of_lt hrest, Nat.mul_add_mod_of_lt hrest]
  induction fuel generalizing quotient rest with
  | zero => exact ⟨0, hnone, .inl rfl⟩
  | succ fuel ih =>
    rw [moreDigits]
    split
    case isTrue hzero =>
      obtain rfl : rest = 0 := by omega
      exact ⟨0, hnone, .inr (by simp)⟩
    case isFalse =>
      have hlt : rest * 10 % den < den := Nat.mod_lt _ (by omega)
      have hnext : (quotient * 10 + rest * 10 / den) * den + rest * 10 % den = (quotient * den + rest) * 10 := by
        linear_combination Nat.div_add_mod (rest * 10) den
      obtain ⟨n, heq, hn⟩ := ih (quotient * 10 + rest * 10 / den) hlt
        (by rw [pow_zero, mul_one, mul_add_div_of_lt hlt, Nat.mul_add_mod_of_lt hlt])
      rw [hnext, mul_assoc, ← pow_succ'] at heq hn
      exact ⟨n + 1, by rw [heq], hn.imp_left (congrArg (· + 1))⟩

/-! ## The rounded quotient -/

/-- The quotient of natural numbers, rounded half up. -/
def halfUp (num den : Nat) : Nat := num / den + if den ≤ 2 * (num % den) then 1 else 0

theorem halfUp_of_dvd {num den : Nat} (hden : 0 < den) (h : den ∣ num) : halfUp num den = num / den := by
  have hmod : num % den = 0 := Nat.mod_eq_zero_of_dvd h
  simp [halfUp, hmod, hden.ne']

theorem mul_pow_le_of_digitCount {n k : Nat} (hn : n ≠ 0) (hk : quotientDigits ≤ digitCount n + k) :
    10 ^ (quotientDigits - 1) ≤ n * 10 ^ k :=
  calc 10 ^ (quotientDigits - 1) ≤ 10 ^ (digitCount n - 1 + k) :=
        Nat.pow_le_pow_right (by decide) (by have := digitCount_pos n; omega)
    _ = 10 ^ (digitCount n - 1) * 10 ^ k := pow_add _ _ _
    _ ≤ n * 10 ^ k := Nat.mul_le_mul_right _ (pow_digitCount_le hn)

/-- A quotient of positive numbers is rounded half up at a power of ten; where something is left it has at
least the number of digits that it is rounded to. -/
theorem divideNat_eq {num den : Nat} (hnum : 0 < num) (hden : 0 < den) (scale : Int) :
    ∃ k : Nat, divideNat num den scale = (halfUp (num * 10 ^ k) den, scale + k) ∧
      (den ∣ num * 10 ^ k ∨ 10 ^ (quotientDigits - 1) ≤ num * 10 ^ k / den) := by
  have hshift : den ≤ num * 10 ^ upscale (digitCount den + 1) num den :=
    le_mul_pow_upscale ((lt_ten_pow_digitCount den).le.trans (Nat.le_mul_of_pos_left _ hnum))
  simp only [divideNat, Power.ten_eq]
  generalize upscale (digitCount den + 1) num den = shift at hshift ⊢
  obtain ⟨n, heq, hn⟩ := moreDigits_eq (quotientDigits - digitCount (num * 10 ^ shift / den))
    (num * 10 ^ shift / den) (Nat.mod_lt (num * 10 ^ shift) hden)
  rw [heq]
  rw [Nat.div_add_mod', mul_assoc, ← pow_add] at hn ⊢
  refine ⟨shift + n, ?_, ?_⟩
  · have hround : num * 10 ^ (shift + n) % den * 10 / den ≥ 5 ↔ den ≤ 2 * (num * 10 ^ (shift + n) % den) := by
      rw [ge_iff_le, Nat.le_div_iff_mul_le hden]
      omega
    simp only [halfUp, hround, Nat.cast_add, add_assoc]
  · refine hn.symm.imp_right fun hn => ?_
    have hfirst : num * 10 ^ shift / den ≠ 0 := (Nat.div_pos hshift hden).ne'
    calc 10 ^ (quotientDigits - 1) ≤ num * 10 ^ shift / den * 10 ^ n :=
          mul_pow_le_of_digitCount hfirst (by omega)
      _ ≤ num * 10 ^ (shift + n) / den := by
        rw [Nat.le_div_iff_mul_le hden, pow_add, ← mul_assoc, Nat.mul_right_comm]
        exact Nat.mul_le_mul_right _ (Nat.div_mul_le_self _ _)

end Decimal

/-! ## Integer parts -/

/-- The integer part of a rational number, towards zero. -/
def towardsZero (q : ℚ) : ℤ := if 0 ≤ q then ⌊q⌋ else ⌈q⌉

theorem towardsZero_neg (q : ℚ) : towardsZero (-q) = -towardsZero q := by
  unfold towardsZero
  rcases lt_trichotomy q 0 with h | rfl | h
  · rw [if_pos (by linarith), if_neg (by linarith), Int.floor_neg]
  · simp
  · rw [if_neg (by linarith), if_pos h.le, Int.ceil_neg]

theorem towardsZero_of_nonneg {q : ℚ} (h : 0 ≤ q) : towardsZero q = ⌊q⌋₊ := by
  rw [towardsZero, if_pos h, Int.natCast_floor_eq_floor h]

theorem towardsZero_of_nonpos {q : ℚ} (h : q ≤ 0) : towardsZero q = -⌊-q⌋₊ := by
  rw [← towardsZero_of_nonneg (neg_nonneg.mpr h), towardsZero_neg, neg_neg]

/-- The size of the integer part is the integer part of the size. -/
theorem natAbs_towardsZero (q : ℚ) : (towardsZero q).natAbs = ⌊|q|⌋₊ := by
  rcases le_total 0 q with h | h
  · rw [towardsZero_of_nonneg h, abs_of_nonneg h, Int.natAbs_natCast]
  · rw [towardsZero_of_nonpos h, abs_of_nonpos h, Int.natAbs_neg, Int.natAbs_natCast]

/-- Numbers of one sign whose sizes have one integer part have one integer part. -/
theorem towardsZero_eq_of_floor {q r : ℚ} (hsign : 0 ≤ q * r) (h : ⌊|q|⌋₊ = ⌊|r|⌋₊) :
    towardsZero q = towardsZero r := by
  obtain ⟨hq, hr⟩ | ⟨hq, hr⟩ := mul_nonneg_iff.mp hsign
  · rw [towardsZero_of_nonneg hq, towardsZero_of_nonneg hr, ← abs_of_nonneg hq, ← abs_of_nonneg hr, h]
  · rw [towardsZero_of_nonpos hq, towardsZero_of_nonpos hr, ← abs_of_nonpos hq, ← abs_of_nonpos hr, h]

theorem towardsZero_natCast_div (m n : ℕ) : towardsZero (m / n) = (m / n : ℕ) := by
  rw [towardsZero_of_nonneg (by positivity), Nat.floor_div_eq_div]

/-- The integer part of a quotient of integers is their quotient towards zero. -/
theorem towardsZero_intCast_div (m n : ℤ) : towardsZero (m / n) = m.tdiv n := by
  obtain ⟨m, rfl | rfl⟩ := m.eq_nat_or_neg <;> obtain ⟨n, rfl | rfl⟩ := n.eq_nat_or_neg <;>
    simp [neg_div, div_neg, towardsZero_neg, towardsZero_natCast_div, Int.neg_tdiv, Int.tdiv_neg]

/-! ## Decimals -/

namespace Decimal

/-- Cutting a decimal to an integer is exact. -/
theorem truncate_eq (d : Decimal) : d.truncate = towardsZero d.value := by
  rw [truncate]
  split
  case isTrue hscale =>
    have hvalue : d.value = ((d.coefficient * 10 ^ (-d.scale).toNat : ℤ) : ℚ) / (1 : ℤ) := by
      obtain ⟨n, hn⟩ : ∃ n : ℕ, -d.scale = n := ⟨(-d.scale).toNat, by omega⟩
      rw [value, hn, zpow_natCast, Int.toNat_natCast]
      simp
    rw [hvalue, towardsZero_intCast_div, Int.tdiv_one, Power.ten_eq, Nat.cast_pow, Nat.cast_ofNat]
  case isFalse hscale =>
    have hvalue : d.value = (d.coefficient : ℚ) / ((10 ^ d.scale.toNat : ℤ) : ℚ) := by
      obtain ⟨n, hn⟩ : ∃ n : ℕ, d.scale = n := ⟨d.scale.toNat, by omega⟩
      rw [value, hn, zpow_neg, zpow_natCast, Int.toNat_natCast, div_eq_mul_inv]
      push_cast
      rfl
    rw [hvalue, towardsZero_intCast_div, Power.ten_eq, Nat.cast_pow, Nat.cast_ofNat]

/-- The quotient of two decimals is that of their coefficients at a common scale. -/
theorem value_div_value (a b : Decimal) : a.value / b.value =
    a.coefficientAt (max a.scale b.scale) / b.coefficientAt (max a.scale b.scale) := by
  rw [value_eq_coefficientAt a (le_max_left _ _), value_eq_coefficientAt b (le_max_right _ _),
    mul_div_mul_right _ _ (ten_zpow_pos _).ne']

/-- The remainder is what the divisor, taken as often as the integer part of the quotient says, leaves of the
dividend. -/
theorem value_remainder (a b : Decimal) :
    (a.remainder b).value = a.value - b.value * towardsZero (a.value / b.value) := by
  rw [value_div_value, towardsZero_intCast_div, value_eq_coefficientAt a (le_max_left _ _),
    value_eq_coefficientAt b (le_max_right _ _), remainder, value, Int.tmod_def]
  push_cast
  ring

/-! ## Rounded quotients -/

theorem halfUp_eq_floor {den : ℕ} (num : ℕ) (hden : 0 < den) :
    halfUp num den = ⌊(num : ℚ) / den + 1 / 2⌋₊ := by
  have hhalf : (num : ℚ) / den + 1 / 2 = ((2 * num + den : ℕ) : ℚ) / ((2 * den : ℕ) : ℚ) := by
    push_cast
    field_simp
  have hsplit : 2 * num + den = 2 * (num % den) + den + num / den * (2 * den) := by
    linarith [Nat.div_add_mod num den]
  have hlt := Nat.mod_lt num hden
  rw [hhalf, Nat.floor_div_eq_div, halfUp, hsplit, Nat.add_mul_div_right _ _ (by omega), Nat.add_comm]
  congr 1
  split
  case isTrue h => exact (Nat.div_eq_of_lt_le (by omega) (by omega)).symm
  case isFalse h => exact (Nat.div_eq_of_lt (by omega)).symm

/-- A number is another one, rounded half up in size to a number of digits after the point; with these, the
other one has all the digits of a quotient. -/
structure Rounded (q r : ℚ) (places : ℤ) : Prop where
  size : |r| = ⌊|q| * 10 ^ places + 1 / 2⌋₊ * 10 ^ (-places)
  sign : 0 ≤ r * q
  digits : 10 ^ (quotientDigits - 1) ≤ |q| * 10 ^ places

theorem abs_value (d : Decimal) : |d.value| = d.coefficient.natAbs * 10 ^ (-d.scale) := by
  rw [value, abs_mul, abs_of_pos (ten_zpow_pos _), ← Int.cast_abs, ← Nat.cast_natAbs]

theorem value_eq_sign_mul (d : Decimal) : d.value = d.coefficient.sign * |d.value| := by
  rw [abs_value, value, ← mul_assoc, ← Int.cast_natCast, ← Int.cast_mul, Int.sign_mul_natAbs]

/-- The size of a quotient through the coefficients. -/
theorem abs_div_value (a b : Decimal) (k : ℕ) : |a.value / b.value| * 10 ^ (a.scale - b.scale + k) =
    ((a.coefficient.natAbs * 10 ^ k : ℕ) : ℚ) / b.coefficient.natAbs := by
  have hscale : (10 : ℚ) ^ (a.scale - b.scale + k) = 10 ^ (-b.scale) / 10 ^ (-a.scale) * 10 ^ k := by
    rw [← zpow_sub₀ (by norm_num), zpow_add₀ (by norm_num), zpow_natCast]
    congr 2
    ring
  have ha := (ten_zpow_pos (-a.scale)).ne'
  have hb := (ten_zpow_pos (-b.scale)).ne'
  rw [abs_div, abs_value, abs_value, hscale]
  push_cast
  field_simp

/-- The sign of a quotient, apart from its size. -/
theorem div_value_eq_sign_mul (a b : Decimal) : a.value / b.value =
    ((a.coefficient.sign * b.coefficient.sign : ℤ) : ℚ) * |a.value / b.value| := by
  have hinv : (b.coefficient.sign : ℚ)⁻¹ = b.coefficient.sign := by
    rcases Int.sign_trichotomy b.coefficient with h | h | h <;> rw [h] <;> norm_num
  calc a.value / b.value
      = a.coefficient.sign * |a.value| / (b.coefficient.sign * |b.value|) := by
        rw [← value_eq_sign_mul, ← value_eq_sign_mul]
    _ = a.coefficient.sign * (b.coefficient.sign : ℚ)⁻¹ * (|a.value| / |b.value|) := by
        rw [mul_div_mul_comm, div_eq_mul_inv (a.coefficient.sign : ℚ)]
    _ = _ := by rw [hinv, abs_div, Int.cast_mul]

/-- A quotient is exact, or it is rounded. -/
theorem value_divide {a b : Decimal} (hb : b.coefficient ≠ 0) :
    (a.divide b).value = a.value / b.value ∨ ∃ places, Rounded (a.value / b.value) (a.divide b).value places := by
  rw [divide]
  split
  case isTrue h =>
    rw [Bool.or_eq_true, isZero, beq_iff_eq, eq_iff, value_ofInt, Int.cast_one] at h
    rcases h with h | h
    · simp [value_zero h]
    · simp [h]
  case isFalse h =>
    rw [Bool.or_eq_true, isZero, beq_iff_eq, not_or] at h
    have hden : 0 < b.coefficient.natAbs := Int.natAbs_pos.mpr hb
    obtain ⟨k, heq, hk⟩ := divideNat_eq (Int.natAbs_pos.mpr h.1) hden (a.scale - b.scale)
    have hsize := abs_div_value a b k
    have hquotient := div_value_eq_sign_mul a b
    have hone : |((a.coefficient.sign * b.coefficient.sign : ℤ) : ℚ)| = 1 := by
      rw [← Int.cast_abs, abs_mul, Int.abs_sign_of_ne_zero h.1, Int.abs_sign_of_ne_zero hb, mul_one,
        Int.cast_one]
    rw [heq, value]
    generalize a.coefficient.natAbs * 10 ^ k = num at *
    generalize a.scale - b.scale + (k : ℤ) = places at *
    generalize a.coefficient.sign * b.coefficient.sign = sign at *
    have hplaces := ten_zpow_pos places
    rw [Int.cast_mul, Int.cast_natCast, mul_assoc]
    rcases hk with hk | hk
    · refine .inl ?_
      rw [hquotient, halfUp_of_dvd hden hk, Nat.cast_div hk (by exact_mod_cast hden.ne'), ← hsize, zpow_neg,
        mul_inv_cancel_right₀ hplaces.ne']
    · refine .inr ⟨places, ?_, ?_, ?_⟩
      · rw [abs_mul, hone, one_mul, abs_of_nonneg (by positivity), hsize, halfUp_eq_floor num hden]
      · rw [hquotient, mul_mul_mul_comm]
        exact mul_nonneg (mul_self_nonneg _) (by positivity)
      · rw [hsize]
        exact le_trans (by exact_mod_cast hk) Nat.cast_div_le

/-- The digits of an integer part that is told from the next integer. -/
def integerDigits : ℕ := 20

/-- A number is not so near to the next integer away from zero that a quotient with an integer part of
`integerDigits` digits is rounded to it. -/
def Clear (q : ℚ) : Prop := 10 ^ ((integerDigits : ℤ) - quotientDigits) < ⌊|q|⌋₊ + 1 - |q|

namespace Rounded

variable {q r : ℚ} {places : ℤ}

theorem abs_le (h : Rounded q r places) : |r| ≤ |q| + 10 ^ (-places) / 2 := by
  have hplaces := ten_zpow_pos places
  have hq : |q| * 10 ^ places * 10 ^ (-places) = |q| := by
    rw [zpow_neg, mul_inv_cancel_right₀ hplaces.ne']
  calc |r| = ⌊|q| * 10 ^ places + 1 / 2⌋₊ * 10 ^ (-places) := h.size
    _ ≤ (|q| * 10 ^ places + 1 / 2) * 10 ^ (-places) :=
      mul_le_mul_of_nonneg_right (Nat.floor_le (by positivity)) (ten_zpow_pos _).le
    _ = |q| + 10 ^ (-places) / 2 := by
      rw [add_mul, hq]
      ring

/-- With few places after the point a number that has all its digits is large, and stays so. -/
theorem large (h : Rounded q r places) (hplaces : places + integerDigits < quotientDigits) :
    10 ^ integerDigits ≤ ⌊|q|⌋₊ ∧ 10 ^ integerDigits ≤ ⌊|r|⌋₊ := by
  have hlarge {x : ℚ} (hx : 10 ^ (quotientDigits - 1) ≤ x * 10 ^ places) : 10 ^ integerDigits ≤ ⌊x⌋₊ := by
    refine Nat.le_floor ?_
    have hpower : ((10 ^ integerDigits : ℕ) : ℚ) * 10 ^ places ≤ 10 ^ (quotientDigits - 1) := by
      rw [Nat.cast_pow, Nat.cast_ofNat, ← zpow_natCast, ← zpow_natCast, ← zpow_add₀ (by norm_num)]
      refine zpow_le_zpow_right₀ (by norm_num) ?_
      rw [quotientDigits, integerDigits] at *
      omega
    exact le_of_mul_le_mul_right (hpower.trans hx) (ten_zpow_pos places)
  refine ⟨hlarge h.digits, hlarge ?_⟩
  rw [h.size, zpow_neg, inv_mul_cancel_right₀ (ten_zpow_pos places).ne']
  have hfloor : 10 ^ (quotientDigits - 1) ≤ ⌊|q| * 10 ^ places + 1 / 2⌋₊ :=
    Nat.le_floor (by push_cast; linarith [h.digits])
  exact_mod_cast hfloor

theorem floor_le (h : Rounded q r places) (hplaces : 0 ≤ places) : ⌊|q|⌋₊ ≤ ⌊|r|⌋₊ := by
  obtain ⟨n, rfl⟩ := Int.eq_ofNat_of_zero_le hplaces
  have hfloor : ⌊|q|⌋₊ * 10 ^ n ≤ ⌊|q| * 10 ^ (n : ℤ) + 1 / 2⌋₊ := by
    refine Nat.le_floor ?_
    push_cast
    have := mul_le_mul_of_nonneg_right (Nat.floor_le (abs_nonneg q)) (ten_zpow_pos n).le
    rw [zpow_natCast] at this ⊢
    linarith
  refine Nat.le_floor ?_
  rw [h.size, zpow_neg, ← div_eq_mul_inv, le_div_iff₀ (ten_zpow_pos _), zpow_natCast]
  exact_mod_cast hfloor

/-- What is left of a number when it was rounded: the same, unless it was rounded to the next integer or it
is far too large to fit anywhere. -/
theorem floor_cases (h : Rounded q r places) :
    ⌊|r|⌋₊ = ⌊|q|⌋₊ ∨ (⌊|r|⌋₊ = ⌊|q|⌋₊ + 1 ∧ ¬ Clear q) ∨
      (10 ^ integerDigits ≤ ⌊|q|⌋₊ ∧ 10 ^ integerDigits ≤ ⌊|r|⌋₊) := by
  by_cases hplaces : places + integerDigits < quotientDigits
  · exact .inr (.inr (h.large hplaces))
  have hle := h.floor_le (by rw [quotientDigits, integerDigits] at hplaces; omega)
  have hunit : (10 : ℚ) ^ (-places) ≤ 10 ^ ((integerDigits : ℤ) - quotientDigits) :=
    zpow_le_zpow_right₀ (by norm_num) (by omega)
  have hone : (10 : ℚ) ^ ((integerDigits : ℤ) - quotientDigits) ≤ 1 := by
    rw [quotientDigits, integerDigits]
    norm_num
  have hnext := Nat.lt_floor_add_one |q|
  have hrounded := h.abs_le
  have hunit' := ten_zpow_pos (-places)
  by_cases heq : ⌊|r|⌋₊ = ⌊|q|⌋₊
  · exact .inl heq
  · have hr : (⌊|r|⌋₊ : ℚ) ≤ |r| := Nat.floor_le (abs_nonneg r)
    have hlt : ⌊|r|⌋₊ < ⌊|q|⌋₊ + 2 := by
      have : (⌊|r|⌋₊ : ℚ) < ⌊|q|⌋₊ + 2 := by linarith
      exact_mod_cast this
    have hsucc : ⌊|r|⌋₊ = ⌊|q|⌋₊ + 1 := by omega
    refine .inr (.inl ⟨hsucc, fun hclear => ?_⟩)
    rw [hsucc, Nat.cast_add, Nat.cast_one] at hr
    rw [Clear] at hclear
    linarith

end Rounded

/-- What integer division leaves of a quotient: its integer part, unless the quotient is rounded to the next
integer, or neither of the two fits in 64 bits. -/
theorem truncate_divide {a b : Decimal} (hb : b.coefficient ≠ 0) :
    (a.divide b).truncate = towardsZero (a.value / b.value) ∨
      ((a.divide b).truncate.natAbs = (towardsZero (a.value / b.value)).natAbs + 1 ∧
        ¬ Clear (a.value / b.value)) ∨
      (10 ^ integerDigits ≤ (towardsZero (a.value / b.value)).natAbs ∧
        10 ^ integerDigits ≤ (a.divide b).truncate.natAbs) := by
  rw [truncate_eq, natAbs_towardsZero, natAbs_towardsZero]
  obtain h | ⟨places, h⟩ := value_divide (a := a) hb
  · exact .inl (congrArg towardsZero h)
  · exact h.floor_cases.imp_left (towardsZero_eq_of_floor h.sign)

/-- A quotient is clear if its divisor is written with few digits at the common scale: its distance from the
next integer is a multiple of what the divisor is contained in one. -/
theorem clear_of_digits {a b : Decimal}
    (h : (b.coefficientAt (max a.scale b.scale)).natAbs < 10 ^ (quotientDigits - integerDigits)) :
    Clear (a.value / b.value) := by
  have hdigits : (10 : ℚ) ^ ((integerDigits : ℤ) - quotientDigits) =
      ((10 ^ (quotientDigits - integerDigits) : ℕ) : ℚ)⁻¹ := by
    rw [Nat.cast_pow, Nat.cast_ofNat, ← zpow_natCast, ← zpow_neg]
    rfl
  rw [Clear, hdigits, value_div_value, abs_div, ← Int.cast_abs, ← Int.cast_abs, ← Nat.cast_natAbs,
    ← Nat.cast_natAbs]
  generalize (b.coefficientAt _).natAbs = den at *
  generalize (a.coefficientAt _).natAbs = num
  rcases Nat.eq_zero_or_pos den with rfl | hden
  · rw [Nat.cast_zero, div_zero, Nat.floor_zero, Nat.cast_zero, sub_zero, zero_add]
    exact inv_lt_one_of_one_lt₀ (by norm_num [quotientDigits, integerDigits])
  · have hinv : ((10 ^ (quotientDigits - integerDigits) : ℕ) : ℚ)⁻¹ < (den : ℚ)⁻¹ :=
      inv_strictAnti₀ (by exact_mod_cast hden) (by exact_mod_cast h)
    have hgap : ((num / den : ℕ) : ℚ) + 1 - num / den = (den - num % den : ℕ) * (den : ℚ)⁻¹ := by
      have hmod : ((num / den : ℕ) : ℚ) * den + (num % den : ℕ) = num := by
        exact_mod_cast Nat.div_add_mod' num den
      rw [Nat.cast_sub (Nat.mod_lt num hden).le, ← hmod]
      field_simp
      ring
    have hone : 1 ≤ den - num % den := by
      have := Nat.mod_lt num hden
      omega
    rw [Nat.floor_div_eq_div, hgap]
    exact hinv.trans_le (le_mul_of_one_le_left (by positivity) (Nat.one_le_cast.mpr hone))

end Decimal
end HybridQuery
