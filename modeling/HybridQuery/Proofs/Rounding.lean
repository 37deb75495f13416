import Mathlib
import HybridQuery.Numeric.Double

/-!
# Rounding to doubles

Doubles within the range are counted in units of the least positive one. A quotient is rounded to a multiple
of the step between the doubles of its size, and those below that size are further away.

* `Double.nearestBits_nearest`: no double is nearer to a quotient than the one that it rounds to.
* `Double.nearestBits_eq_infiniteBits_iff`: which quotients overflow.
* `Double.denote_ofSize`: what the bits of a size denote.
* `Double.ofDecimal_mul_pow`: the double nearest to a decimal does not depend on its scale.
* `Double.ofDecimal_exactDecimal`: the double nearest to a number that a double denotes is that double.
-/

namespace HybridQuery

theorem Power.two_eq (n : Nat) : Power.two n = 2 ^ n := by simp [Power.two]

theorem Power.ten_eq (n : Nat) : Power.ten n = 10 ^ n := by simp [Power.ten]

theorem Power.five_eq (n : Nat) : Power.five n = 5 ^ n := by simp [Power.five]

/-- A power is a fraction of powers that are no fractions. -/
theorem zpow_eq_div {b : ℚ} (hb : b ≠ 0) (n : Int) : b ^ n = b ^ n.toNat / b ^ (-n).toNat := by
  rw [← zpow_natCast, ← zpow_natCast, ← zpow_sub₀ hb]
  congr 1
  omega

/-! ## Digits -/

namespace Decimal

theorem digitCount_le_iff {n k : Nat} (hk : 0 < k) : digitCount n ≤ k ↔ n < 10 ^ k :=
  Nat.length_toDigits_le_iff (by omega) hk

theorem digitCount_pos (n : Nat) : 0 < digitCount n := Nat.length_toDigits_pos

theorem lt_ten_pow_digitCount (n : Nat) : n < 10 ^ digitCount n :=
  (digitCount_le_iff (digitCount_pos n)).mp le_rfl

theorem pow_digitCount_le {n : Nat} (h : n ≠ 0) : 10 ^ (digitCount n - 1) ≤ n := by
  by_contra hlt
  have hlt := not_le.mp hlt
  cases hcount : digitCount n - 1 with
  | zero => rw [hcount] at hlt; simp at hlt; omega
  | succ k =>
    rw [hcount] at hlt
    have := (digitCount_le_iff (Nat.succ_pos k)).mpr hlt
    omega

theorem digitCount_mul_pow {n : Nat} (h : n ≠ 0) (k : Nat) : digitCount (n * 10 ^ k) = digitCount n + k := by
  have hpos := digitCount_pos n
  refine le_antisymm ?_ ?_
  · rw [digitCount_le_iff (by omega), pow_add]
    exact Nat.mul_lt_mul_of_pos_right (lt_ten_pow_digitCount n) (by positivity)
  · have hlow : 10 ^ (digitCount n - 1 + k) ≤ n * 10 ^ k := by
      rw [pow_add]
      exact Nat.mul_le_mul_right _ (pow_digitCount_le h)
    have := (Nat.pow_lt_pow_iff_right (by omega)).mp (hlow.trans_lt (lt_ten_pow_digitCount _))
    omega

theorem magnitude_mul_pow {c : Int} (hc : c ≠ 0) (s : Int) (k : Nat) :
    magnitude ⟨c * 10 ^ k, s⟩ = magnitude ⟨c, s - k⟩ := by
  rw [magnitude, magnitude, Int.natAbs_mul, Int.natAbs_pow]
  dsimp only
  rw [show Int.natAbs 10 = 10 from rfl, digitCount_mul_pow (Int.natAbs_ne_zero.mpr hc)]
  omega

end Decimal

namespace Double

/-! ## Quotients -/

theorem roundQuotient_mul {k : Nat} (hk : 0 < k) (num den : Nat) :
    roundQuotient (k * num) (k * den) = roundQuotient num den := by
  have hgt (a b : Nat) : 2 * (k * a) > k * b ↔ 2 * a > b := by
    rw [mul_left_comm]
    exact Nat.mul_lt_mul_left hk
  have heq (a b : Nat) : 2 * (k * a) = k * b ↔ 2 * a = b := by
    rw [mul_left_comm]
    exact Nat.mul_right_inj hk.ne'
  simp only [roundQuotient, Nat.mul_div_mul_left _ _ hk, Nat.mul_mod_mul_left, hgt, heq]

theorem roundQuotient_exact {den : Nat} (h : 0 < den) (q : Nat) : roundQuotient (q * den) den = q := by
  rw [roundQuotient, Nat.mul_mod_left, Nat.mul_div_cancel _ h, if_neg]
  omega

theorem roundQuotient_le (num den : Nat) : roundQuotient num den ≤ num / den + 1 := by
  rw [roundQuotient]
  split <;> omega

/-- Rounding to the nearest integer is off by half at most, and by just half only to an even one. -/
theorem roundQuotient_bounds {den : Nat} (h : 0 < den) (num : Nat) :
    2 * num ≤ (2 * roundQuotient num den + 1) * den ∧ 2 * roundQuotient num den * den ≤ 2 * num + den ∧
      (2 * num = (2 * roundQuotient num den + 1) * den → roundQuotient num den % 2 = 0) := by
  have hdiv := Nat.div_add_mod num den
  have hmod := Nat.mod_lt num h
  rw [roundQuotient]
  generalize num / den = q at hdiv
  generalize num % den = r at hdiv hmod
  rw [mul_comm] at hdiv
  split
  · rename_i hup
    refine ⟨?_, ?_, fun heq => ?_⟩
    · nlinarith
    · rcases hup with hup | hup <;> nlinarith
    · nlinarith
  · rename_i hdown
    rw [not_or, not_lt, not_and] at hdown
    refine ⟨?_, ?_, fun heq => ?_⟩
    · nlinarith
    · nlinarith
    · have : 2 * r = den := by nlinarith
      have := hdown.2 this
      omega

/-- What rounds to an even number or above it: all that is not less than the number by more than half. -/
theorem le_roundQuotient_iff {den n : Nat} (h : 0 < den) (num : Nat) (heven : n % 2 = 0) :
    n ≤ roundQuotient num den ↔ 2 * n * den ≤ 2 * num + den := by
  obtain ⟨hle, hge, htie⟩ := roundQuotient_bounds h num
  generalize roundQuotient num den = q at *
  constructor
  · intro hnq
    exact (Nat.mul_le_mul_right den (Nat.mul_le_mul_left 2 hnq)).trans hge
  · intro hnum
    by_contra hlt
    have hstep : (2 * q + 2) * den ≤ 2 * n * den := Nat.mul_le_mul_right _ (by omega)
    rw [show (2 * q + 2) * den = (2 * q + 1) * den + den by ring] at hstep
    have hodd := htie (by omega)
    have hexact : (2 * q + 2) * den = 2 * n * den := by
      rw [show (2 * q + 2) * den = (2 * q + 1) * den + den by ring]
      omega
    have := Nat.eq_of_mul_eq_mul_right h hexact
    omega

/-- No multiple is nearer than the rounded one. -/
theorem roundQuotient_nearest {den : Nat} (h : 0 < den) (num n : Nat) :
    |(num : Int) - roundQuotient num den * den| ≤ |(num : Int) - n * den| := by
  obtain ⟨hle, hge, -⟩ := roundQuotient_bounds h num
  generalize roundQuotient num den = q at *
  zify at hle hge h
  rcases lt_trichotomy n q with hlt | rfl | hgt
  · have : ((n : Int) + 1) * den ≤ q * den := mul_le_mul_of_nonneg_right (by exact_mod_cast hlt) h.le
    rw [abs_le]
    constructor <;> cases abs_cases ((num : Int) - n * den) <;> nlinarith
  · rfl
  · have : ((q : Int) + 1) * den ≤ n * den := mul_le_mul_of_nonneg_right (by exact_mod_cast hgt) h.le
    rw [abs_le]
    constructor <;> cases abs_cases ((num : Int) - n * den) <;> nlinarith

theorem nearestBits_mul {k : Nat} (hk : 0 < k) (num den : Nat) :
    nearestBits (k * num) (k * den) = nearestBits num den := by
  simp only [nearestBits, stepOf, mul_assoc, Nat.mul_div_mul_left _ _ hk, roundQuotient_mul hk]

/-- Equal quotients have the same nearest double. -/
theorem nearestBits_congr {num den num' den' : Nat} (hden : 0 < den) (hden' : 0 < den')
    (h : num * den' = num' * den) : nearestBits num den = nearestBits num' den' := by
  rw [← nearestBits_mul hden', ← nearestBits_mul hden num' den', mul_comm den' num, h, mul_comm num' den,
    mul_comm den' den]

/-- The double nearest to a decimal does not depend on the scale at which it is written. -/
theorem ofDecimal_mul_pow (c s : Int) (k : Nat) : ofDecimal ⟨c * 10 ^ k, s⟩ = ofDecimal ⟨c, s - k⟩ := by
  by_cases hc : c = 0
  · simp [ofDecimal, hc]
  have hpow : (0 : Int) < 10 ^ k := by positivity
  have hsign : c * 10 ^ k < 0 ↔ c < 0 := by
    rw [← not_le, ← not_le, mul_nonneg_iff_of_pos_right hpow]
  have hbits : nearestBits ((c * 10 ^ k).natAbs * Power.ten (-s).toNat) (Power.ten s.toNat) =
      nearestBits (c.natAbs * Power.ten (-(s - k)).toNat) (Power.ten (s - k).toNat) := by
    simp only [Power.ten_eq, Int.natAbs_mul, Int.natAbs_pow, show Int.natAbs 10 = 10 from rfl]
    refine nearestBits_congr (by positivity) (by positivity) ?_
    simp only [mul_assoc, ← pow_add]
    congr 2
    omega
  simp only [ofDecimal, Decimal.magnitude_mul_pow hc, mul_eq_zero, hc, hpow.ne', or_false, hsign, hbits]

/-! ## Bits -/

/-- Bits that do not stand for NaN are kept. -/
theorem toBits_ofBits {b : UInt64} (h : b.toNat / 2 ^ 52 % 2 ^ 11 = 2047 → b.toNat % 2 ^ 52 = 0) :
    (Float.ofBits b).toBits = b := by
  have hvalid : Float.Model.Format.binary64.Valid b.toBitVec := by
    refine ⟨fun hexponent hmantissa => absurd (BitVec.eq_of_toNat_eq ?_) hmantissa⟩
    have hexponent := congrArg BitVec.toNat hexponent
    simp only [Float.Model.UnpackedFloat.unpackExponent, BitVec.toNat_cast, BitVec.extractLsb_toNat,
      BitVec.neg_one_eq_allOnes, BitVec.toNat_allOnes, Nat.shiftRight_eq_div_pow] at hexponent
    simp only [Float.Model.UnpackedFloat.unpackMantissa, BitVec.toNat_cast, BitVec.extractLsb_toNat]
    exact h hexponent
  exact congrArg Float.toBits (Float.ofBits_toBits ⟨⟨b, hvalid⟩⟩)

theorem infiniteBits_eq : infiniteBits = 2047 * 2 ^ 52 := by rw [infiniteBits, Power.two_eq]

theorem toBits_ofSize (negative : Bool) {bits : Nat} (h : bits ≤ infiniteBits) :
    (ofSize negative bits).toBits.toNat = (if negative then 2 ^ 63 else 0) + bits := by
  rw [infiniteBits_eq] at h
  have hnat : ((if negative then Power.two 63 else 0) + bits).toUInt64.toNat =
      (if negative then 2 ^ 63 else 0) + bits := by
    rw [Power.two_eq, Nat.toUInt64, UInt64.toNat_ofNat', Nat.mod_eq_of_lt]
    cases negative <;> simp <;> omega
  rw [ofSize, toBits_ofBits, hnat]
  rw [hnat]
  cases negative <;> simp <;> omega

/-- What the bits of a size denote. -/
theorem denote_ofSize (negative : Bool) {bits : Nat} (h : bits ≤ infiniteBits) :
    denote (ofSize negative bits) =
      if bits = infiniteBits then .infinite negative
      else if bits < 2 ^ 52 then .finite negative bits leastExponent
      else .finite negative (fullMantissa + bits % 2 ^ 52) (leastExponent - 1 + (bits / 2 ^ 52 : Nat)) := by
  rw [denote, toBits_ofSize negative h]
  rw [infiniteBits_eq] at h ⊢
  simp only [Power.two_eq]
  have hsign : ((if negative then 2 ^ 63 else 0) + bits) / 2 ^ 63 = 1 ↔ negative = true := by
    cases negative <;> simp <;> omega
  have hfield : ((if negative then 2 ^ 63 else 0) + bits) / 2 ^ 52 % 2 ^ 11 = bits / 2 ^ 52 := by
    cases negative <;> simp <;> omega
  have hfraction : ((if negative then 2 ^ 63 else 0) + bits) % 2 ^ 52 = bits % 2 ^ 52 := by
    cases negative
    · simp
    · simp
      omega
  rw [hfield, hfraction]
  simp only [hsign, Bool.decide_eq_true]
  by_cases hinfinite : bits = 2047 * 2 ^ 52
  · rw [if_pos (by omega), if_pos (by omega), if_pos hinfinite]
  rw [if_neg (by omega), if_neg hinfinite]
  by_cases hsmall : bits < 2 ^ 52
  · rw [if_pos (by omega), if_pos hsmall, Nat.mod_eq_of_lt hsmall]
  · rw [if_neg (by omega), if_neg hsmall]

/-- A double other than NaN has a sign and a size. -/
theorem exists_size {d : Float} (h : denote d ≠ .nan) :
    ∃ negative, ∃ bits ≤ infiniteBits, d = ofSize negative bits := by
  have hlt : d.toBits.toNat < 2 ^ 64 := d.toBits.toNat_lt
  have hspecial : d.toBits.toNat / 2 ^ 52 % 2 ^ 11 = 2047 → d.toBits.toNat % 2 ^ 52 = 0 := by
    intro hfield
    by_contra hfraction
    rw [denote] at h
    simp only [Power.two_eq] at h
    rw [if_pos hfield, if_neg hfraction] at h
    exact h rfl
  refine ⟨decide (d.toBits.toNat / 2 ^ 63 = 1), d.toBits.toNat % 2 ^ 63, ?_, ?_⟩
  · rw [infiniteBits_eq]
    omega
  · have hbits : (if decide (d.toBits.toNat / 2 ^ 63 = 1) = true then 2 ^ 63 else 0) +
        d.toBits.toNat % 2 ^ 63 = d.toBits.toNat := by
      simp only [decide_eq_true_eq]
      split <;> omega
    rw [ofSize, Power.two_eq, hbits, Nat.toUInt64, UInt64.ofNat_toNat, Float.ofBits_toBits]

theorem eq_ofSize_of_infinite {d : Float} {negative : Bool} (h : denote d = .infinite negative) :
    d = ofSize negative infiniteBits := by
  obtain ⟨negative', bits, hbits, rfl⟩ := exists_size (d := d) (by simp [h])
  rw [denote_ofSize negative' hbits] at h
  split at h
  · rename_i hinfinite
    cases h
    rw [hinfinite]
  · split at h <;> cases h

theorem eq_ofSize_of_finite {d : Float} {negative : Bool} {mantissa : Nat} {exponent : Int}
    (h : denote d = .finite negative mantissa exponent) :
    ∃ bits < infiniteBits, d = ofSize negative bits := by
  obtain ⟨negative', bits, hbits, rfl⟩ := exists_size (d := d) (by simp [h])
  rw [denote_ofSize negative' hbits] at h
  split at h
  · cases h
  · rename_i hfinite
    split at h <;> cases h <;> exact ⟨_, lt_of_le_of_ne hbits hfinite, rfl⟩

/-! ## Units -/

/-- The number that the bits of a size stand for, in units of the least positive double. -/
def unitsOf (bits : Nat) : Nat :=
  if bits < 2 ^ 52 then bits else (2 ^ 52 + bits % 2 ^ 52) * 2 ^ (bits / 2 ^ 52 - 1)

theorem log2_mul_pow {m : Nat} (k : Nat) (hlow : 2 ^ 52 ≤ m) (hhigh : m < 2 ^ 53) :
    (m * 2 ^ k).log2 = 52 + k := by
  have hne : m * 2 ^ k ≠ 0 := by positivity
  refine le_antisymm (Nat.lt_succ_iff.mp ((Nat.log2_lt hne).mpr ?_)) ((Nat.le_log2 hne).mpr ?_)
  · rw [show (52 + k).succ = 53 + k by omega, pow_add]
    exact Nat.mul_lt_mul_of_pos_right hhigh (by positivity)
  · rw [pow_add]
    exact Nat.mul_le_mul_right _ hlow

/-- A quotient that a double stands for is not rounded. -/
theorem nearestBits_of_units {num den bits : Nat} (hden : 0 < den) (hbits : bits ≤ infiniteBits)
    (h : num * Power.two (-leastExponent).toNat = unitsOf bits * den) : nearestBits num den = bits := by
  rw [nearestBits, h]
  simp only [stepOf, Nat.mul_div_cancel _ hden, Power.two_eq]
  by_cases hsmall : bits < 2 ^ 52
  · have hunits : unitsOf bits = bits := if_pos hsmall
    have hshift : bits.log2 - 52 = 0 := by
      rcases eq_or_ne bits 0 with rfl | hne
      · rfl
      · have := (Nat.log2_lt hne).mpr hsmall
        omega
    rw [hunits, hshift, pow_zero, mul_one, roundQuotient_exact hden]
    omega
  · have hunits : unitsOf bits = (2 ^ 52 + bits % 2 ^ 52) * 2 ^ (bits / 2 ^ 52 - 1) := if_neg hsmall
    rw [hunits, log2_mul_pow _ (by omega) (by omega), Nat.add_sub_cancel_left, mul_assoc,
      mul_comm (2 ^ _) den, roundQuotient_exact (by positivity)]
    omega

/-! ## Steps -/

theorem le_stepOf_iff {units den k : Nat} (hden : 0 < den) (hk : 0 < k) :
    k ≤ stepOf units den ↔ 2 ^ 52 * 2 ^ k * den ≤ units := by
  rw [← pow_add, stepOf]
  rcases eq_or_ne (units / den) 0 with hzero | hne
  · have hlt : units < den := (Nat.div_eq_zero_iff_lt hden).mp hzero
    have hle : den ≤ 2 ^ (52 + k) * den := Nat.le_mul_of_pos_left _ (by positivity)
    rw [hzero, Nat.log2_zero]
    omega
  · rw [← Nat.le_div_iff_mul_le hden, ← Nat.le_log2 hne]
    omega

/-- A mantissa is rounded to 53 bits at most, or to the power of two above them. -/
theorem roundQuotient_step_le (units : Nat) {den : Nat} (hden : 0 < den) :
    roundQuotient units (den * 2 ^ stepOf units den) ≤ 2 ^ 53 := by
  have hunits : units < 2 ^ 52 * 2 ^ (stepOf units den + 1) * den :=
    not_le.mp (mt (le_stepOf_iff hden (Nat.succ_pos _)).mpr (Nat.not_succ_le_self _))
  refine (roundQuotient_le _ _).trans (Nat.div_lt_of_lt_mul ?_)
  calc units < 2 ^ 52 * 2 ^ (stepOf units den + 1) * den := hunits
    _ = den * 2 ^ stepOf units den * 2 ^ 53 := by ring

/-- Where the step is not that of the least doubles, a mantissa has all its bits. -/
theorem le_roundQuotient_step {units den : Nat} (hden : 0 < den) (h : 0 < stepOf units den) :
    2 ^ 52 ≤ roundQuotient units (den * 2 ^ stepOf units den) := by
  have hunits := (le_stepOf_iff hden h).mp le_rfl
  have hfloor : 2 ^ 52 ≤ units / (den * 2 ^ stepOf units den) := by
    rw [Nat.le_div_iff_mul_le (by positivity)]
    calc 2 ^ 52 * (den * 2 ^ stepOf units den) = 2 ^ 52 * 2 ^ stepOf units den * den := by ring
      _ ≤ units := hunits
  rw [roundQuotient]
  split <;> omega

/-- The sizes of a power of two and above: what rounds to them is not below it by more than half of the last
step. -/
theorem le_size_iff (units : Nat) {den : Nat} (hden : 0 < den) (k : Nat) :
    (k + 3) * 2 ^ 52 ≤ stepOf units den * 2 ^ 52 + roundQuotient units (den * 2 ^ stepOf units den) ↔
      2 ^ (54 + k) * den ≤ units + 2 ^ k * den := by
  have hhigh := roundQuotient_step_le units hden
  have hlow := @le_roundQuotient_step units den hden
  have hdouble : 2 ^ (54 + k) * den = 2 * (2 ^ 52 * 2 ^ (k + 1) * den) := by ring
  rcases lt_trichotomy (stepOf units den) (k + 1) with hlt | heq | hgt
  · have hunits := not_le.mp (mt (le_stepOf_iff (k := k + 1) hden (by omega)).mpr (not_le.mpr hlt))
    have hpower : 2 ^ k * den ≤ 2 ^ 52 * 2 ^ (k + 1) * den := by
      rw [← pow_add]
      exact Nat.mul_le_mul_right _ (Nat.pow_le_pow_right (by omega) (by omega))
    omega
  · have hstep : 2 ^ 53 ≤ roundQuotient units (den * 2 ^ stepOf units den) ↔
        2 ^ (54 + k) * den ≤ units + 2 ^ k * den := by
      rw [heq, le_roundQuotient_iff (by positivity) _ (by norm_num),
        show 2 * 2 ^ 53 * (den * 2 ^ (k + 1)) = 2 * (2 ^ (54 + k) * den) by ring,
        show 2 * units + den * 2 ^ (k + 1) = 2 * (units + 2 ^ k * den) by ring]
      exact Nat.mul_le_mul_left_iff (by omega)
    rw [← hstep]
    omega
  · have hunits := (le_stepOf_iff (k := k + 2) hden (by omega)).mp hgt
    have hpower : 2 ^ (54 + k) * den = 2 ^ 52 * 2 ^ (k + 2) * den := by ring
    have := hlow (by omega)
    omega

theorem mul_two_pow_le_iff (num den j w : Nat) :
    2 ^ (54 + (j + w)) * den ≤ num * 2 ^ w + 2 ^ (j + w) * den ↔
      2 ^ (54 + j) * den ≤ num + 2 ^ j * den := by
  have hleft : 2 ^ (54 + (j + w)) * den = 2 ^ (54 + j) * den * 2 ^ w := by
    rw [← Nat.add_assoc, pow_add]
    ring
  have hright : num * 2 ^ w + 2 ^ (j + w) * den = (num + 2 ^ j * den) * 2 ^ w := by
    rw [pow_add]
    ring
  rw [hleft, hright]
  exact Nat.mul_le_mul_right_iff (by positivity)

/-- A quotient overflows from half a step below `2 ^ 1024` on. -/
theorem nearestBits_eq_infiniteBits_iff {num den : Nat} (h : 0 < den) :
    nearestBits num den = infiniteBits ↔ Power.two 1024 * den ≤ num + Power.two 970 * den := by
  have hsize := le_size_iff (num * 2 ^ (-leastExponent).toNat) h (970 + (-leastExponent).toNat)
  rw [mul_two_pow_le_iff] at hsize
  rw [show 1024 = 54 + 970 from rfl]
  simp only [Power.two_eq, nearestBits]
  rw [min_eq_right_iff, infiniteBits_eq]
  exact hsize

/-! ## Nearness -/

/-- The bits of a mantissa of up to 53 bits at a step. -/
theorem unitsOf_step {step q : Nat} (hhigh : q ≤ 2 ^ 53) (hlow : step = 0 ∨ 2 ^ 52 ≤ q) :
    unitsOf (step * 2 ^ 52 + q) = q * 2 ^ step := by
  rw [unitsOf]
  rcases lt_trichotomy q (2 ^ 53) with hlt | rfl | hgt
  · rcases lt_or_ge q (2 ^ 52) with hsmall | hlarge
    · obtain rfl : step = 0 := by omega
      rw [if_pos (by omega), pow_zero]
      omega
    · rw [if_neg (by omega), show (step * 2 ^ 52 + q) / 2 ^ 52 - 1 = step by omega]
      congr 1
      omega
  · rw [if_neg (by omega), show (step * 2 ^ 52 + 2 ^ 53) / 2 ^ 52 - 1 = step + 1 by omega,
      show (step * 2 ^ 52 + 2 ^ 53) % 2 ^ 52 = 0 by omega]
    ring
  · omega

/-- Past a step, doubles are its multiples. -/
theorem step_dvd_unitsOf (bits step : Nat) :
    2 ^ step ∣ unitsOf bits ∨ unitsOf bits ≤ 2 ^ 52 * 2 ^ step := by
  rw [unitsOf]
  split
  · refine .inr ?_
    have : 0 < 2 ^ step := by positivity
    nlinarith
  · rcases le_or_gt step (bits / 2 ^ 52 - 1) with hle | hlt
    · exact .inl ((pow_dvd_pow 2 hle).mul_left _)
    · refine .inr ?_
      have hpower : 2 * 2 ^ (bits / 2 ^ 52 - 1) ≤ 2 ^ step := by
        rw [← pow_succ']
        exact Nat.pow_le_pow_right (by omega) hlt
      have hmantissa : 2 ^ 52 + bits % 2 ^ 52 ≤ 2 ^ 52 * 2 := by omega
      calc (2 ^ 52 + bits % 2 ^ 52) * 2 ^ (bits / 2 ^ 52 - 1)
          ≤ 2 ^ 52 * 2 * 2 ^ (bits / 2 ^ 52 - 1) := Nat.mul_le_mul_right _ hmantissa
        _ = 2 ^ 52 * (2 * 2 ^ (bits / 2 ^ 52 - 1)) := by rw [mul_assoc]
        _ ≤ 2 ^ 52 * 2 ^ step := Nat.mul_le_mul_left _ hpower

/-- **No double is nearer to a quotient** than the one that it rounds to, unless that is infinite. -/
theorem nearestBits_nearest {num den : Nat} (hden : 0 < den) (hfinite : nearestBits num den < infiniteBits)
    (bits : Nat) :
    |((num * Power.two (-leastExponent).toNat : Nat) : Int) - unitsOf (nearestBits num den) * den| ≤
      |((num * Power.two (-leastExponent).toNat : Nat) : Int) - unitsOf bits * den| := by
  revert hfinite
  rw [nearestBits]
  generalize num * Power.two (-leastExponent).toNat = units
  simp only [Power.two_eq]
  intro hfinite
  have hsteps : stepOf units den = 0 ∨ 2 ^ 52 ≤ roundQuotient units (den * 2 ^ stepOf units den) :=
    (Nat.eq_zero_or_pos _).imp_right (le_roundQuotient_step hden)
  rw [min_eq_left (by omega), unitsOf_step (roundQuotient_step_le units hden) hsteps]
  have hwidth : 0 < den * 2 ^ stepOf units den := by positivity
  have hnearest := roundQuotient_nearest hwidth units
  have hfull (h : 0 < stepOf units den) := (le_stepOf_iff hden h).mp le_rfl
  generalize roundQuotient units (den * 2 ^ stepOf units den) = q at hnearest ⊢
  generalize stepOf units den = step at hnearest hfull ⊢
  have hmultiple (n : Nat) :
      |(units : Int) - (q * 2 ^ step : Nat) * den| ≤ |(units : Int) - (n * 2 ^ step : Nat) * den| := by
    have := hnearest n
    push_cast at this ⊢
    rwa [mul_comm (den : Int), ← mul_assoc, ← mul_assoc] at this
  -- A double that is no multiple of the step lies below those that are, and the number does not.
  rcases step_dvd_unitsOf bits step with ⟨n, hn⟩ | hsmall
  · rw [hn, mul_comm (2 ^ step)]
    exact hmultiple n
  · rcases Nat.eq_zero_or_pos step with rfl | hpos
    · simpa using hmultiple (unitsOf bits)
    · refine (hmultiple (2 ^ 52)).trans ?_
      have hsmall : (unitsOf bits : Int) * den ≤ ((2 ^ 52 * 2 ^ step : Nat) : Int) * den := by
        exact_mod_cast Nat.mul_le_mul_right den hsmall
      have hfull : ((2 ^ 52 * 2 ^ step : Nat) : Int) * den ≤ units := by exact_mod_cast hfull hpos
      rw [abs_of_nonneg (by linarith), abs_of_nonneg (by linarith)]
      linarith

/-! ## Numbers of doubles -/

/-- The number of a double within the range, counted in units of the least positive one. -/
theorem units_of_denote {negative : Bool} {bits mantissa : Nat} {exponent : Int}
    (hbits : bits < infiniteBits) (h : denote (ofSize negative bits) = .finite negative mantissa exponent) :
    mantissa < 2 ^ 53 ∧ leastExponent ≤ exponent ∧ exponent ≤ 971 ∧
      unitsOf bits = mantissa * 2 ^ (exponent - leastExponent).toNat := by
  rw [denote_ofSize negative hbits.le, if_neg hbits.ne] at h
  rw [infiniteBits_eq] at hbits
  split at h
  · rename_i hsmall
    cases h
    refine ⟨by omega, le_rfl, by decide, ?_⟩
    rw [unitsOf, if_pos hsmall, sub_self]
    exact (mul_one _).symm
  · rename_i hlarge
    cases h
    refine ⟨?_, by omega, ?_, ?_⟩
    · rw [fullMantissa, Power.two_eq]
      omega
    · rw [leastExponent]
      omega
    · rw [unitsOf, if_neg hlarge, fullMantissa, Power.two_eq]
      congr 2
      omega

theorem magnitude_le {c : Int} (s : Int) {k : Nat} (hk : 0 < k) (h : c.natAbs < 10 ^ k) :
    (⟨c, s⟩ : Decimal).magnitude ≤ k - s := by
  have := (Decimal.digitCount_le_iff hk).mpr h
  rw [Decimal.magnitude]
  dsimp only
  omega

theorem le_magnitude {c : Int} (s : Int) {k : Nat} (h : 10 ^ k ≤ c.natAbs) :
    k + 1 - s ≤ (⟨c, s⟩ : Decimal).magnitude := by
  have hlt : 10 ^ k < 10 ^ Decimal.digitCount c.natAbs := h.trans_lt (Decimal.lt_ten_pow_digitCount _)
  have := (Nat.pow_lt_pow_iff_right (by omega)).mp hlt
  rw [Decimal.magnitude]
  dsimp only
  omega

theorem natAbs_signed (negative : Bool) (n : Nat) :
    ((if negative then -1 else 1 : Int) * n).natAbs = n := by
  cases negative <;> simp

theorem exactDecimal_of_nonneg (negative : Bool) (mantissa : Nat) {exponent : Int} (h : 0 ≤ exponent) :
    exactDecimal negative mantissa exponent =
      ⟨(if negative then -1 else 1) * (mantissa * 2 ^ exponent.toNat : Nat), 0⟩ := by
  rw [exactDecimal, if_pos h, Power.two_eq, Nat.cast_mul]

theorem exactDecimal_of_neg (negative : Bool) (mantissa : Nat) {exponent : Int} (h : exponent < 0) :
    exactDecimal negative mantissa exponent =
      ⟨(if negative then -1 else 1) * (mantissa * 5 ^ (-exponent).toNat : Nat), -exponent⟩ := by
  rw [exactDecimal, if_neg (not_le.mpr h), Power.five_eq, Nat.cast_mul]

theorem two_pow_le_ten_pow {n k : Nat} (h : n ≤ 3 * k) : 2 ^ n ≤ 10 ^ k :=
  calc 2 ^ n ≤ 2 ^ (3 * k) := Nat.pow_le_pow_right (by omega) h
    _ = 8 ^ k := by rw [pow_mul, show 2 ^ 3 = 8 from rfl]
    _ ≤ 10 ^ k := Nat.pow_le_pow_left (by omega) k

theorem ten_pow_sub_le {n k : Nat} (h : n ≤ 3 * k) : 10 ^ (n - k) ≤ 5 ^ n := by
  rcases le_total n k with hle | hle
  · rw [Nat.sub_eq_zero_of_le hle, pow_zero]
    exact Nat.one_le_pow _ _ (by omega)
  · refine Nat.le_of_mul_le_mul_right ?_ (show 0 < 10 ^ k by positivity)
    calc 10 ^ (n - k) * 10 ^ k = 5 ^ n * 2 ^ n := by
          rw [← pow_add, Nat.sub_add_cancel hle, show 10 = 5 * 2 from rfl, mul_pow]
      _ ≤ 5 ^ n * 10 ^ k := Nat.mul_le_mul_left _ (two_pow_le_ten_pow h)

/-- The magnitude of a number that a double denotes is far within the range of decimals that is looked
at. -/
theorem magnitude_exactDecimal (negative : Bool) {mantissa : Nat} {exponent : Int} (hne : mantissa ≠ 0)
    (hmantissa : mantissa < 2 ^ 53) (hlow : leastExponent ≤ exponent) (hhigh : exponent ≤ 971) :
    |(exactDecimal negative mantissa exponent).magnitude| ≤ decimalRange := by
  have hmantissa : mantissa < 10 ^ 18 := hmantissa.trans_le (two_pow_le_ten_pow (by omega))
  have hpos : 0 < mantissa := Nat.pos_of_ne_zero hne
  rw [leastExponent] at hlow
  rw [decimalRange, abs_le]
  rcases le_or_gt 0 exponent with hexponent | hexponent
  · rw [exactDecimal_of_nonneg _ _ hexponent]
    generalize hn : mantissa * 2 ^ exponent.toNat = n
    have hupper : n < 10 ^ (18 + 324) := by
      rw [← hn, pow_add]
      exact Nat.mul_lt_mul_of_lt_of_le hmantissa (two_pow_le_ten_pow (by omega)) (by positivity)
    have hlower : 10 ^ 0 ≤ n := hn ▸ Nat.mul_pos hpos (by positivity)
    have hle := magnitude_le 0 (by omega) ((natAbs_signed negative n).trans_lt hupper)
    have hge := le_magnitude 0 (hlower.trans_eq (natAbs_signed negative n).symm)
    omega
  · rw [exactDecimal_of_neg _ _ hexponent]
    generalize hn : mantissa * 5 ^ (-exponent).toNat = n
    have hupper : n < 10 ^ (18 + (-exponent).toNat) := by
      rw [← hn, pow_add]
      exact Nat.mul_lt_mul_of_lt_of_le hmantissa (Nat.pow_le_pow_left (by omega) _) (by positivity)
    have hlower : 10 ^ ((-exponent).toNat - 358) ≤ n :=
      hn ▸ (ten_pow_sub_le (by omega)).trans (Nat.le_mul_of_pos_left _ hpos)
    have hle := magnitude_le (-exponent) (by omega) ((natAbs_signed negative n).trans_lt hupper)
    have hge := le_magnitude (-exponent) (hlower.trans_eq (natAbs_signed negative n).symm)
    omega

theorem two_pow_sub {least exponent : Int} (hleast : least ≤ 0) (h : 0 ≤ exponent) :
    2 ^ (exponent - least).toNat = 2 ^ exponent.toNat * 2 ^ (-least).toNat := by
  rw [← pow_add]
  congr 1
  omega

theorem two_pow_sub_mul {least exponent : Int} (hleast : least ≤ exponent) (h : exponent < 0) :
    2 ^ (exponent - least).toNat * 10 ^ (-exponent).toNat = 5 ^ (-exponent).toNat * 2 ^ (-least).toNat := by
  have hten (n : Nat) : 10 ^ n = 2 ^ n * 5 ^ n := mul_pow 2 5 n
  rw [hten, ← mul_assoc, ← pow_add, mul_comm]
  congr 2
  omega

/-- A decimal that a double denotes is not rounded. -/
theorem ofDecimal_of_units {c s : Int} {bits : Nat} (hc : c ≠ 0)
    (hrange : |(⟨c, s⟩ : Decimal).magnitude| ≤ decimalRange) (hbits : bits ≤ infiniteBits)
    (h : c.natAbs * Power.ten (-s).toNat * Power.two (-leastExponent).toNat =
      unitsOf bits * Power.ten s.toNat) : ofDecimal ⟨c, s⟩ = ofSize (c < 0) bits := by
  obtain ⟨hlow, hhigh⟩ := abs_le.mp hrange
  have hten : 0 < Power.ten s.toNat := by
    rw [Power.ten_eq]
    positivity
  have hsmall : ¬(c = 0 ∨ (⟨c, s⟩ : Decimal).magnitude < -decimalRange) := by
    rw [not_or, not_lt]
    exact ⟨hc, hlow⟩
  rw [ofDecimal, if_neg hsmall, if_neg (not_lt.mpr hhigh), nearestBits_of_units hten hbits h]

/-- The double nearest to the number that a double denotes is that double. -/
theorem ofDecimal_exactDecimal {d : Float} {negative : Bool} {mantissa : Nat} {exponent : Int}
    (h : denote d = .finite negative mantissa exponent) (hne : mantissa ≠ 0) :
    ofDecimal (exactDecimal negative mantissa exponent) = d := by
  obtain ⟨bits, hbits, rfl⟩ := eq_ofSize_of_finite h
  obtain ⟨hmantissa, hlow, hhigh, hunits⟩ := units_of_denote hbits h
  have hrange := magnitude_exactDecimal negative hne hmantissa hlow hhigh
  have hsign {n : Nat} (hn : 0 < n) : ((if negative then -1 else 1 : Int) * n < 0) ↔ negative = true := by
    cases negative
    · simp
    · simp
      omega
  have hzero {n : Nat} (hn : 0 < n) : (if negative then -1 else 1 : Int) * n ≠ 0 := by
    rw [← Int.natAbs_ne_zero, natAbs_signed]
    exact hn.ne'
  rcases le_or_gt 0 exponent with hexponent | hexponent
  · rw [exactDecimal_of_nonneg _ _ hexponent] at hrange ⊢
    have hn : 0 < mantissa * 2 ^ exponent.toNat := by positivity
    rw [ofDecimal_of_units (hzero hn) hrange hbits.le ?_]
    · simp only [hsign hn, Bool.decide_eq_true]
    rw [natAbs_signed, hunits, two_pow_sub (by decide) hexponent, Power.two_eq, neg_zero, mul_right_comm,
      mul_assoc mantissa]
  · rw [exactDecimal_of_neg _ _ hexponent] at hrange ⊢
    have hn : 0 < mantissa * 5 ^ (-exponent).toNat := by positivity
    rw [ofDecimal_of_units (hzero hn) hrange hbits.le ?_]
    · simp only [hsign hn, Bool.decide_eq_true]
    have hwhole : Power.ten (- -exponent).toNat = 1 := by
      rw [neg_neg, Int.toNat_of_nonpos hexponent.le, Power.ten_eq, pow_zero]
    rw [natAbs_signed, hunits, hwhole, mul_one, Power.two_eq, Power.ten_eq, mul_assoc, mul_assoc,
      two_pow_sub_mul hlow hexponent]

end Double
end HybridQuery
