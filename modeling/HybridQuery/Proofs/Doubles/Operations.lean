import HybridQuery.Json.Reader
import HybridQuery.Proofs.Rounding

/-!
# Arithmetic of doubles

The operations on doubles work on mantissas and exponents, and round what they get by the bits below the last
one that is kept. What comes out is the double nearest to the exact result.

* `Double.ofModel_round`: rounding a mantissa with residual bits gives the nearest double.
* `Double.toFloat_eq`, `Double.mul_eq`, `Double.div_eq`: integers, products and quotients of normal doubles.
* `Double.toFloat_div_powerOfTen`, `Double.toFloat_mul_powerOfTen`: a number that is read from digits and a
  small power of ten is rounded once.
-/

namespace HybridQuery
namespace Double

open Float.Model Float.Model.UnpackedFloat

/-! ## Bits in the model -/

/-- The sign of a double in the model of floating-point numbers. -/
def signOf (negative : Bool) : Sign := if negative then .negative else .positive

theorem toNat_packComponents (negative : Bool) (e : BitVec 11) (m : BitVec 52) :
    (packComponents Format.binary64 (signOf negative) e m).toNat =
      (if negative then 2 ^ 63 else 0) + e.toNat * 2 ^ 52 + m.toNat := by
  have hm : m.toNat < 2 ^ 52 := m.isLt
  have he : e.toNat < 2 ^ 11 := e.isLt
  have hsign : (signOf negative).toBitVec.toNat = if negative then 1 else 0 := by cases negative <;> rfl
  change ((signOf negative).toBitVec ++ e ++ m).toNat = _
  rw [BitVec.toNat_append, BitVec.toNat_append, hsign, ← Nat.shiftLeft_add_eq_or_of_lt he,
    ← Nat.shiftLeft_add_eq_or_of_lt hm, Nat.shiftLeft_eq, Nat.shiftLeft_eq]
  cases negative
  · simp
  · simp
    ring

theorem ofModel_pack {x : UnpackedFloat} {negative : Bool} {bits : Nat} (hbits : bits ≤ infiniteBits)
    (h : (UnpackedFloat.pack Format.binary64 x).toNat = (if negative then 2 ^ 63 else 0) + bits) :
    Float.ofModel (.pack x) = ofSize negative bits := by
  have htoBits : (Float.ofModel (.pack x)).toBits = (ofSize negative bits).toBits := by
    rw [← UInt64.toNat_inj, toBits_ofSize negative hbits]
    exact h
  rw [← Float.ofBits_toBits (Float.ofModel (.pack x)), htoBits, Float.ofBits_toBits]

theorem ofModel_pack_finite (negative : Bool) {m : Nat} {e : Int} (hlow : 2 ^ 52 ≤ m) (hhigh : m < 2 ^ 53)
    (he : leastExponent ≤ e) (hm : 0 < m) :
    Float.ofModel (.pack (.finite (signOf negative) m e hm)) =
      ofSize negative (min ((e - leastExponent).toNat * 2 ^ 52 + m) infiniteBits) := by
  rw [leastExponent] at he ⊢
  have hlog : m.log2 = 52 := (Nat.log2_eq_iff hm.ne').mpr ⟨hlow, hhigh⟩
  have hbias : (e + Format.binary64.exponentBias + Format.binary64.mantissaBitsWithoutImplicit).toNat =
      (e + 1075).toNat := by
    change (e + 1023 + 52).toNat = _
    omega
  refine ofModel_pack (min_le_right _ _) ?_
  rw [UnpackedFloat.pack]
  simp only [hbias, hlog]
  rw [infiniteBits_eq]
  split
  · rename_i h
    have h : 2048 ≤ (e + 1075).toNat + 1 := h
    rw [min_eq_right (by omega)]
    exact toNat_packComponents negative _ _
  · rename_i h
    have h : ¬ 2048 ≤ (e + 1075).toNat + 1 := h
    rw [if_pos (show 52 + 1 = Format.binary64.mantissaBits from rfl), toNat_packComponents, min_eq_left (by omega)]
    simp only [BitVec.toNat_ofNat]
    omega


theorem unpackSign_toNat (b : BitVec 64) :
    (@unpackSign Format.binary64 b).toNat = b.toNat / 2 ^ 63 := by
  have := b.isLt
  simp only [unpackSign, BitVec.toNat_cast, BitVec.extractLsb_toNat, Nat.shiftRight_eq_div_pow]
  change b.toNat / 2 ^ 63 % 2 = _
  omega

theorem unpackExponent_toNat (b : BitVec 64) :
    (@unpackExponent Format.binary64 b).toNat = b.toNat / 2 ^ 52 % 2 ^ 11 := by
  simp only [unpackExponent, BitVec.toNat_cast, BitVec.extractLsb_toNat, Nat.shiftRight_eq_div_pow]

theorem unpackMantissa_toNat (b : BitVec 64) :
    (@unpackMantissa Format.binary64 b).toNat = b.toNat % 2 ^ 52 := by
  simp only [unpackMantissa, BitVec.toNat_cast, BitVec.extractLsb_toNat, Nat.shiftRight_eq_div_pow]
  change b.toNat / 1 % _ = _
  rw [Nat.div_one]

/-- What the model reads off the bits of a normal double. -/
theorem unpack_normal {b : BitVec 64} (hzero : b.toNat / 2 ^ 52 % 2 ^ 11 ≠ 0)
    (hspecial : b.toNat / 2 ^ 52 % 2 ^ 11 ≠ 2047) :
    UnpackedFloat.unpack Format.binary64 b =
      .finite (signOf (b.toNat / 2 ^ 63 = 1)) (2 ^ 52 + b.toNat % 2 ^ 52)
        ((b.toNat / 2 ^ 52 % 2 ^ 11 : Nat) - 1075) (by omega) := by
  have hne {n : Nat} (hlt : n < 2 ^ 11) (hn : b.toNat / 2 ^ 52 % 2 ^ 11 ≠ n) :
      @unpackExponent Format.binary64 b ≠ BitVec.ofNat 11 n := by
    intro heq
    have := unpackExponent_toNat b
    rw [heq, BitVec.toNat_ofNat, Nat.mod_eq_of_lt hlt] at this
    exact hn this.symm
  have hsign : Sign.ofBitVec (@unpackSign Format.binary64 b) = signOf (b.toNat / 2 ^ 63 = 1) := by
    have hlt := b.isLt
    have hbit := unpackSign_toNat b
    generalize @unpackSign Format.binary64 b = sign at hbit ⊢
    rcases BitVec.eq_zero_or_eq_one sign with rfl | rfl
    · rw [← hbit]; rfl
    · rw [← hbit]; rfl
  have hmantissa : (1#1 ++ @unpackMantissa Format.binary64 b).toNat = 2 ^ 52 + b.toNat % 2 ^ 52 := by
    have hlt := (@unpackMantissa Format.binary64 b).isLt
    rw [BitVec.toNat_append, ← Nat.shiftLeft_add_eq_or_of_lt hlt, unpackMantissa_toNat, Nat.shiftLeft_eq]
    rfl
  rw [UnpackedFloat.unpack]
  dsimp only
  rw [if_neg (show _ ≠ -1#11 from hne (n := 2047) (by decide) hspecial),
    if_neg (show _ ≠ 0#11 from hne (n := 0) (by decide) hzero)]
  simp only [UnpackedFloat.finite.injEq]
  refine ⟨hsign, hmantissa, ?_⟩
  rw [unpackExponent_toNat]
  rfl

/-- The model reads the mantissa and the exponent of a normal double off its bits. -/
theorem unpack_toModel {f : Float} {negative : Bool} {m : Nat} {e : Int}
    (h : denote f = .finite negative m e) (hm : 2 ^ 52 ≤ m) :
    f.toModel.unpack = .finite (signOf negative) m e (by omega) := by
  rw [denote] at h
  simp only [Power.two_eq] at h
  split at h
  · split at h <;> cases h
  · rename_i hspecial
    split at h
    · cases h
      omega
    · rename_i hzero
      cases h
      refine (unpack_normal (b := f.toBits.toBitVec) hzero hspecial).trans ?_
      simp only [UnpackedFloat.finite.injEq]
      refine ⟨rfl, by rw [fullMantissa, Power.two_eq]; rfl, ?_⟩
      change ((f.toBits.toNat / 2 ^ 52 % 2 ^ 11 : Nat) : Int) - 1075 = _
      rw [leastExponent]
      omega

/-! ## Rounding -/

/-- A mantissa with residual bits that says of a quotient what rounding needs: the integer part, and how what
is left compares with a half. -/
structure Describes (em : ExtendedMantissa) (num den : Nat) : Prop where
  mantissa : em.mantissa = num / den
  roundBit : em.roundBit = true ↔ den ≤ 2 * (num % den)
  stickyBit : em.stickyBit = true ↔ num % den ≠ 0 ∧ 2 * (num % den) ≠ den

theorem describes_ofMantissaAndAccuracy (num : Nat) {den : Nat} (h : 0 < den) :
    Describes (.ofMantissaAndAccuracy (num / den) (accuracyOfFraction (num % den) den)) num den := by
  rw [accuracyOfFraction]
  split
  · rename_i hzero
    exact ⟨rfl, by simp [ExtendedMantissa.ofMantissaAndAccuracy, hzero]; omega,
      by simp [ExtendedMantissa.ofMantissaAndAccuracy, hzero]⟩
  · rename_i hne
    cases hcompare : Ord.compare (2 * (num % den)) den with
    | lt =>
      have := Nat.compare_eq_lt.mp hcompare
      exact ⟨rfl, by simp [ExtendedMantissa.ofMantissaAndAccuracy]; omega,
        by simp [ExtendedMantissa.ofMantissaAndAccuracy]; omega⟩
    | eq =>
      have := Nat.compare_eq_eq.mp hcompare
      exact ⟨rfl, by simp [ExtendedMantissa.ofMantissaAndAccuracy]; omega,
        by simp [ExtendedMantissa.ofMantissaAndAccuracy]; omega⟩
    | gt =>
      have := Nat.compare_eq_gt.mp hcompare
      exact ⟨rfl, by simp [ExtendedMantissa.ofMantissaAndAccuracy]; omega,
        by simp [ExtendedMantissa.ofMantissaAndAccuracy]; omega⟩

namespace Describes

variable {em : ExtendedMantissa} {num den : Nat}

theorem shiftRightOne (h : Describes em num den) (hden : 0 < den) :
    Describes em.shiftRightOne num (den * 2) := by
  have hmod : num % (den * 2) = num % den + den * (num / den % 2) := Nat.mod_mul
  have hlt := Nat.mod_lt num hden
  have hbit : num / den % 2 = 0 ∨ num / den % 2 = 1 := by omega
  refine ⟨?_, ?_, ?_⟩
  · change em.mantissa / 2 = _
    rw [h.mantissa, Nat.div_div_eq_div_mul]
  · change (em.mantissa % 2 != 0) = true ↔ _
    rw [h.mantissa, bne_iff_ne, hmod]
    rcases hbit with hbit | hbit <;> rw [hbit] <;> omega
  · change (em.roundBit || em.stickyBit) = true ↔ _
    rw [Bool.or_eq_true, h.roundBit, h.stickyBit, hmod]
    rcases hbit with hbit | hbit <;> rw [hbit] <;> omega

theorem shiftRight (h : Describes em num den) (hden : 0 < den) (k : Nat) :
    Describes (em >>> k) num (den * 2 ^ k) := by
  induction k with
  | zero => rwa [pow_zero, mul_one]
  | succ k ih =>
    rw [pow_succ, ← mul_assoc]
    exact ih.shiftRightOne (by positivity)

/-- Residual bits decide rounding as the quotient does. -/
theorem roundedMantissa (h : Describes em num den) (hden : 0 < den) :
    em.roundedMantissa = roundQuotient num den := by
  obtain ⟨m, round, sticky⟩ := em
  obtain ⟨hm, hround, hsticky⟩ := h
  simp only at hm hround hsticky
  subst hm
  rw [roundQuotient]
  cases round <;> cases sticky <;>
    simp only [ExtendedMantissa.roundedMantissa, ExtendedMantissa.accuracy, Accuracy.roundToNearestEven,
      Bool.false_eq_true, false_iff, true_iff, not_le, not_and_or, not_not] at hround hsticky ⊢
  · rw [if_neg (by omega)]
  · rw [if_neg (by omega)]
  · split <;> omega
  · rw [if_pos (by omega)]

end Describes

theorem log2_mul_pow_div {num den : Nat} (hden : 0 < den) (h : den ≤ num) (k : Nat) :
    (num * 2 ^ k / den).log2 = (num / den).log2 + k := by
  have hne : num / den ≠ 0 := (Nat.div_pos h hden).ne'
  have hlow := Nat.log2_self_le hne
  have hhigh := Nat.lt_log2_self (n := num / den)
  generalize (num / den).log2 = l at *
  rw [Nat.le_div_iff_mul_le hden] at hlow
  rw [Nat.div_lt_iff_lt_mul hden] at hhigh
  have hlow' : 2 ^ (l + k) ≤ num * 2 ^ k / den := by
    rw [Nat.le_div_iff_mul_le hden, pow_add, mul_right_comm]
    exact Nat.mul_le_mul_right _ hlow
  have hpos : num * 2 ^ k / den ≠ 0 := (lt_of_lt_of_le (by positivity) hlow').ne'
  refine (Nat.log2_eq_iff hpos).mpr ⟨hlow', ?_⟩
  rw [Nat.div_lt_iff_lt_mul hden, add_right_comm, pow_add, mul_right_comm]
  exact Nat.mul_lt_mul_of_pos_right hhigh (by positivity)

theorem targetExponent_eq {m : Nat} {e : Int} (hm : 52 ≤ m.log2) (he : leastExponent ≤ e) :
    Format.binary64.targetExponent (totalExponent m e) = e + (m.log2 - 52 : Nat) := by
  rw [leastExponent] at he
  change max ((m.log2 : Int) + 1 + e - 53) (-1074) = _
  omega

theorem shiftToTargetExponent_eq {m : Nat} {e : Int} (hm : 52 ≤ m.log2) (he : leastExponent ≤ e)
    (accuracy : Accuracy) :
    shiftToTargetExponent Format.binary64 m e accuracy =
      (ExtendedMantissa.ofMantissaAndAccuracy m accuracy >>> (m.log2 - 52), e + (m.log2 - 52 : Nat)) := by
  rw [UnpackedFloat.shiftToTargetExponent, targetExponent_eq hm he, UnpackedFloat.shiftToExponent]
  rw [show (e + (m.log2 - 52 : Nat) - e).toNat = m.log2 - 52 by omega]

theorem le_roundQuotient_stepOf {num den : Nat} (hden : 0 < den) (h : 2 ^ 52 * den ≤ num) :
    2 ^ 52 ≤ roundQuotient num (den * 2 ^ stepOf num den) := by
  rcases Nat.eq_zero_or_pos (stepOf num den) with hzero | hpos
  · rw [hzero, pow_zero, mul_one]
    have := (Nat.le_div_iff_mul_le hden).mpr h
    rw [roundQuotient]
    split <;> omega
  · exact le_roundQuotient_step hden hpos

/-- A quotient that fills a mantissa is rounded to a multiple of its last bit. It becomes a mantissa of 53
bits, or a power of two with the next exponent. -/
theorem roundWithAccuracy_eq (sign : Sign) {num den : Nat} {e : Int} (hden : 0 < den)
    (hfull : 2 ^ 52 * den ≤ num) (he : leastExponent ≤ e) :
    ∃ (m : Nat) (e' : Int) (hm : 0 < m),
      roundWithAccuracy Format.binary64 sign (num / den) e (accuracyOfFraction (num % den) den) =
        .finite sign m e' hm ∧ 2 ^ 52 ≤ m ∧ m < 2 ^ 53 ∧ leastExponent ≤ e' ∧
      (e' - leastExponent).toNat * 2 ^ 52 + m =
        ((e - leastExponent).toNat + stepOf num den) * 2 ^ 52 +
          roundQuotient num (den * 2 ^ stepOf num den) := by
  have hlow := le_roundQuotient_stepOf hden hfull
  have hhigh := roundQuotient_step_le num hden
  have hquotient : 2 ^ 52 ≤ num / den := (Nat.le_div_iff_mul_le hden).mpr hfull
  have hlog : 52 ≤ (num / den).log2 := (Nat.le_log2 (by omega)).mpr hquotient
  have hrounded := ((describes_ofMantissaAndAccuracy num hden).shiftRight hden
    (stepOf num den)).roundedMantissa (by positivity)
  rw [stepOf] at *
  rw [UnpackedFloat.roundWithAccuracy, shiftToTargetExponent_eq hlog he]
  dsimp only
  rw [hrounded]
  generalize (num / den).log2 - 52 = step at *
  generalize roundQuotient num (den * 2 ^ step) = q at *
  have hqlog : 52 ≤ q.log2 := (Nat.le_log2 (by omega)).mpr hlow
  rw [shiftToTargetExponent_eq hqlog (by omega)]
  rw [leastExponent] at he ⊢
  dsimp only
  rcases hhigh.lt_or_eq with hlt | rfl
  · have hq : q.log2 = 52 := (Nat.log2_eq_iff (by omega)).mpr ⟨hlow, hlt⟩
    rw [hq]
    refine ⟨q, e + step, by omega, ?_, hlow, hlt, by omega, by omega⟩
    have hmantissa : (ExtendedMantissa.ofMantissaAndAccuracy q .exact >>> (52 - 52)).mantissa = q := rfl
    simp only [hmantissa, show q ≠ 0 by omega, ↓reduceDIte, UnpackedFloat.finite.injEq, true_and]
    omega
  · rw [Nat.log2_two_pow]
    refine ⟨2 ^ 52, e + step + 1, by decide, ?_, le_rfl, by decide, by omega, by omega⟩
    rfl

/-! ## The nearest double -/

theorem div_congr {num den num' den' : Nat} (hden : 0 < den) (hden' : 0 < den')
    (h : num * den' = num' * den) : num / den = num' / den' := by
  rw [← Nat.mul_div_mul_right num den hden', h, mul_comm den den', Nat.mul_div_mul_right _ _ hden]

theorem roundQuotient_congr {num den num' den' : Nat} (hden : 0 < den) (hden' : 0 < den')
    (h : num * den' = num' * den) : roundQuotient num den = roundQuotient num' den' := by
  rw [← roundQuotient_mul hden', ← roundQuotient_mul hden num' den', mul_comm den' num, h, mul_comm num' den,
    mul_comm den' den]

/-- **Rounding in the model gives the nearest double.** The quotient that is rounded is a number of units in
which doubles are counted. -/
theorem ofModel_round (negative : Bool) {num den N D : Nat} {e : Int} (hden : 0 < den) (hD : 0 < D)
    (hfull : 2 ^ 52 * den ≤ num) (he : leastExponent ≤ e)
    (h : N * Power.two (-leastExponent).toNat * den = num * 2 ^ (e - leastExponent).toNat * D) :
    Float.ofModel (.pack (roundWithAccuracy Format.binary64 (signOf negative) (num / den) e
      (accuracyOfFraction (num % den) den))) = ofSize negative (nearestBits N D) := by
  obtain ⟨m, e', hm, hround, hlow, hhigh, he', hbits⟩ :=
    roundWithAccuracy_eq (signOf negative) hden hfull he
  rw [hround, ofModel_pack_finite negative hlow hhigh he', hbits, nearestBits]
  generalize N * Power.two (-leastExponent).toNat = units at h
  generalize (e - leastExponent).toNat = j at h
  have hle : den ≤ num := le_trans (Nat.le_mul_of_pos_left _ (by decide)) hfull
  have hquotient : 2 ^ 52 ≤ num / den := (Nat.le_div_iff_mul_le hden).mpr hfull
  have hlog : 52 ≤ (num / den).log2 := (Nat.le_log2 (by omega)).mpr hquotient
  have hstep : stepOf units D = j + stepOf num den := by
    rw [stepOf, stepOf, div_congr hD hden h, log2_mul_pow_div hden hle]
    omega
  have hrounded : roundQuotient units (D * 2 ^ (j + stepOf num den)) =
      roundQuotient num (den * 2 ^ stepOf num den) := by
    refine roundQuotient_congr (by positivity) (by positivity) ?_
    rw [pow_add, ← mul_assoc, h]
    ring
  simp only [Power.two_eq, hstep, hrounded]

theorem ofModel_round_exact (negative : Bool) {m N D : Nat} {e : Int} (hD : 0 < D) (hfull : 2 ^ 52 ≤ m)
    (he : leastExponent ≤ e)
    (h : N * Power.two (-leastExponent).toNat = m * 2 ^ (e - leastExponent).toNat * D) :
    Float.ofModel (.pack (roundWithAccuracy Format.binary64 (signOf negative) m e .exact)) =
      ofSize negative (nearestBits N D) := by
  have hscaled : N * Power.two (-leastExponent).toNat * 1 = m * 2 ^ (e - leastExponent).toNat * D := by
    rwa [mul_one]
  have := ofModel_round negative one_pos hD (by omega) he hscaled
  rwa [Nat.div_one, Nat.mod_one] at this

/-! ## Operations -/

/-- A double is normal if its mantissa has all bits. -/
structure IsNormal (f : Float) (negative : Bool) (m : Nat) (e : Int) : Prop where
  denote_eq : denote f = .finite negative m e
  low : 2 ^ 52 ≤ m
  high : m < 2 ^ 53

theorem IsNormal.log2_eq {f : Float} {negative : Bool} {m : Nat} {e : Int} (h : IsNormal f negative m e) :
    m.log2 = 52 :=
  (Nat.log2_eq_iff (by have := h.low; omega)).mpr ⟨h.low, h.high⟩

/-- The double of an integer is the nearest one. -/
theorem toFloat_eq {n : UInt64} (h : n ≠ 0) : n.toFloat = ofSize false (nearestBits n.toNat 1) := by
  have hpos : 0 < n.toNat := UInt64.pos_iff_ne_zero.mpr h
  have hcompare : Ord.compare (n.toNat : Int) 0 = .gt := Int.compare_eq_gt.mpr (by omega)
  have hlog : n.toNat.log2 < 64 := (Nat.log2_lt hpos.ne').mpr n.toNat_lt
  have htarget : Format.binary64.targetExponent (totalExponent n.toNat 0) = (n.toNat.log2 : Int) - 52 := by
    change max ((n.toNat.log2 : Int) + 1 + 0 - 53) (-1074) = _
    omega
  have hround : UnpackedFloat.ofUInt64 Format.binary64 n =
      roundWithAccuracy Format.binary64 (signOf false) (n.toNat <<< (52 - n.toNat.log2))
        (0 - (52 - n.toNat.log2 : Nat)) .exact := by
    rw [UnpackedFloat.ofUInt64, UnpackedFloat.ofNat, UnpackedFloat.ofInt, UnpackedFloat.normalize, hcompare]
    dsimp only
    rw [Int.toNat_natCast, UnpackedFloat.round, htarget, UnpackedFloat.decreaseExponent,
      show (0 - ((n.toNat.log2 : Int) - 52)).toNat = 52 - n.toNat.log2 by omega]
    rfl
  change Float.ofModel (.pack (UnpackedFloat.ofUInt64 Format.binary64 n)) = _
  rw [hround, Nat.shiftLeft_eq]
  have hleast : leastExponent = -1074 := rfl
  refine ofModel_round_exact false one_pos ?_ (by omega) ?_
  · calc 2 ^ 52 ≤ 2 ^ (n.toNat.log2 + (52 - n.toNat.log2)) := Nat.pow_le_pow_right (by decide) (by omega)
      _ = 2 ^ n.toNat.log2 * 2 ^ (52 - n.toNat.log2) := pow_add _ _ _
      _ ≤ n.toNat * 2 ^ (52 - n.toNat.log2) := Nat.mul_le_mul_right _ (Nat.log2_self_le hpos.ne')
  · rw [Power.two_eq, mul_one, mul_assoc, ← pow_add]
    congr 2
    omega

/-- Two ways to write a number, as a quotient and with an exponent, in units of the least positive double. -/
theorem units_of_value {a b N D : Nat} {x : Int} (hb : 0 < b) (hD : 0 < D) (hx : leastExponent ≤ x)
    (h : (N : ℚ) / D = a / b * 2 ^ x) :
    N * Power.two (-leastExponent).toNat * b = a * 2 ^ (x - leastExponent).toNat * D := by
  have hpow : (2 : ℚ) ^ x * 2 ^ (-leastExponent).toNat = 2 ^ (x - leastExponent).toNat := by
    rw [← zpow_natCast, ← zpow_natCast, ← zpow_add₀ two_ne_zero]
    congr 1
    rw [leastExponent] at *
    omega
  have hb : (b : ℚ) ≠ 0 := by exact_mod_cast hb.ne'
  have hD : (D : ℚ) ≠ 0 := by exact_mod_cast hD.ne'
  have hN : (N : ℚ) * b = a * 2 ^ x * D := by
    field_simp at h
    linarith
  rw [Power.two_eq]
  have : (N : ℚ) * 2 ^ (-leastExponent).toNat * b = a * 2 ^ (x - leastExponent).toNat * D := by
    rw [← hpow, mul_right_comm, hN]
    ring
  exact_mod_cast this

section
variable {f g : Float} {negative negative' : Bool} {m m' N D : Nat} {e e' : Int}

/-- A product is the double nearest to the exact one. -/
theorem mul_eq (hf : IsNormal f negative m e) (hg : IsNormal g negative' m' e') (hD : 0 < D)
    (he : leastExponent ≤ e + e')
    (h : (N : ℚ) / D = m * 2 ^ e * (m' * 2 ^ e')) :
    f * g = ofSize (negative ^^ negative') (nearestBits N D) := by
  have hsign : signOf negative * signOf negative' = signOf (negative ^^ negative') := by
    cases negative <;> cases negative' <;> rfl
  have hfull : 2 ^ 52 ≤ m * m' := le_trans hf.low (Nat.le_mul_of_pos_right _ (by have := hg.low; omega))
  change Float.ofModel (.pack (UnpackedFloat.mul Format.binary64 f.toModel.unpack g.toModel.unpack)) = _
  rw [unpack_toModel hf.denote_eq hf.low, unpack_toModel hg.denote_eq hg.low, UnpackedFloat.mul, hsign]
  have hunits := units_of_value (a := m * m') one_pos hD he (h.trans (by
    rw [zpow_add₀ two_ne_zero]
    push_cast
    ring))
  rw [mul_one] at hunits
  exact ofModel_round_exact _ hD hfull he hunits

/-- A quotient is the double nearest to the exact one. -/
theorem div_eq (hf : IsNormal f negative m e) (hg : IsNormal g negative' m' e') (hD : 0 < D)
    (he : leastExponent ≤ e - e' - 53)
    (h : (N : ℚ) / D = m * 2 ^ e / (m' * 2 ^ e')) :
    f / g = ofSize (negative ^^ negative') (nearestBits N D) := by
  have hleast : leastExponent = -1074 := rfl
  have hsign : signOf negative / signOf negative' = signOf (negative ^^ negative') := by
    cases negative <;> cases negative' <;> rfl
  have hm' : 0 < m' := by have := hg.low; omega
  have hfull : 2 ^ 52 * m' ≤ m * 2 ^ 53 := by
    have := hf.low
    have := hg.high
    omega
  have htarget : min (e - e')
      (Format.binary64.targetExponent (totalExponent m e - totalExponent m' e')) = e - e' - 53 := by
    rw [totalExponent, totalExponent, hf.log2_eq, hg.log2_eq]
    change min (e - e') (max ((52 : Nat) + 1 + e - ((52 : Nat) + 1 + e') - 53) (-1074)) = _
    omega
  have hcore : divCore Format.binary64 m e m' e' =
      (m * 2 ^ 53 / m', e - e' - 53, accuracyOfFraction (m * 2 ^ 53 % m') m') := by
    rw [divCore, htarget, show (e - e' - (e - e' - 53)).toNat = 53 by omega, Nat.shiftLeft_eq]
  change Float.ofModel (.pack (UnpackedFloat.div Format.binary64 f.toModel.unpack g.toModel.unpack)) = _
  rw [unpack_toModel hf.denote_eq hf.low, unpack_toModel hg.denote_eq hg.low, UnpackedFloat.div, hsign, hcore]
  refine ofModel_round _ hm' hD hfull he (units_of_value hm' hD he (h.trans ?_))
  rw [zpow_sub₀ two_ne_zero, zpow_sub₀ two_ne_zero]
  push_cast
  field_simp

end

/-! ## Exact doubles -/

theorem isNormal_ofSize (negative : Bool) {bits : Nat} (hlow : 2 ^ 52 ≤ bits) (hhigh : bits < infiniteBits) :
    IsNormal (ofSize negative bits) negative (2 ^ 52 + bits % 2 ^ 52)
      (leastExponent - 1 + (bits / 2 ^ 52 : Nat)) := by
  refine ⟨?_, by omega, by omega⟩
  rw [denote_ofSize negative hhigh.le, if_neg hhigh.ne, if_neg (not_lt.mpr hlow), fullMantissa, Power.two_eq]

theorem neg_ofSize (negative : Bool) {bits : Nat} (hlow : 2 ^ 52 ≤ bits) (hhigh : bits < infiniteBits) :
    -ofSize negative bits = ofSize (!negative) bits := by
  have hnormal := isNormal_ofSize negative hlow hhigh
  have hsign : -signOf negative = signOf (!negative) := by cases negative <;> rfl
  have hleast : leastExponent = -1074 := rfl
  change Float.ofModel (.pack (UnpackedFloat.neg (ofSize negative bits).toModel.unpack)) = _
  rw [unpack_toModel hnormal.denote_eq hnormal.low, UnpackedFloat.neg, hsign,
    ofModel_pack_finite _ hnormal.low hnormal.high (by omega), min_eq_left]
  · congr 1
    omega
  · omega

/-- An integer of 53 bits, times a power of two, is a double. -/
theorem isNormal_nearestBits (negative : Bool) {n j : Nat} (hpos : 0 < n) (h : n < 2 ^ 53) (hj : j ≤ 970) :
    ∃ m, IsNormal (ofSize negative (nearestBits (n * 2 ^ j) 1)) negative m (n.log2 + j - 52) ∧
      (m : ℚ) * 2 ^ (n.log2 + j - 52 : Int) = n * 2 ^ j := by
  have hlog : n.log2 < 53 := (Nat.log2_lt hpos.ne').mpr h
  have hlow : 2 ^ 52 ≤ n * 2 ^ (52 - n.log2) := by
    calc 2 ^ 52 = 2 ^ n.log2 * 2 ^ (52 - n.log2) := by rw [← pow_add]; congr 1; omega
      _ ≤ n * 2 ^ (52 - n.log2) := Nat.mul_le_mul_right _ (Nat.log2_self_le hpos.ne')
  have hhigh : n * 2 ^ (52 - n.log2) < 2 ^ 53 := by
    calc n * 2 ^ (52 - n.log2) < 2 ^ (n.log2 + 1) * 2 ^ (52 - n.log2) :=
          Nat.mul_lt_mul_of_pos_right Nat.lt_log2_self (by positivity)
      _ = 2 ^ 53 := by rw [← pow_add]; congr 1; omega
  have hvalue : ((n * 2 ^ (52 - n.log2) : Nat) : ℚ) * 2 ^ (n.log2 + j - 52 : Int) = n * 2 ^ j := by
    push_cast
    rw [mul_assoc, ← zpow_natCast, ← zpow_natCast, ← zpow_add₀ two_ne_zero]
    congr 2
    omega
  have hunits : n * 2 ^ j * Power.two (-leastExponent).toNat =
      n * 2 ^ (52 - n.log2) * 2 ^ (n.log2 + 1022 + j) := by
    rw [Power.two_eq, mul_assoc, mul_assoc, ← pow_add, ← pow_add, leastExponent]
    congr 2
    omega
  generalize n * 2 ^ (52 - n.log2) = q at *
  have hbits : (n.log2 + 1022 + j) * 2 ^ 52 + q < infiniteBits := by
    rw [infiniteBits_eq]
    omega
  have hnearest : nearestBits (n * 2 ^ j) 1 = (n.log2 + 1022 + j) * 2 ^ 52 + q := by
    refine nearestBits_of_units one_pos hbits.le ?_
    rw [hunits, unitsOf_step hhigh.le (.inr hlow), mul_one]
  refine ⟨q, ?_, hvalue⟩
  have hnormal := isNormal_ofSize negative (by omega) hbits
  rw [hnearest]
  convert hnormal using 1
  · omega
  · rw [leastExponent]
    omega

/-- The double of a smaller integer is that integer. -/
theorem isNormal_toFloat {n : Nat} (hpos : 0 < n) (h : n < 2 ^ 53) :
    ∃ m, IsNormal n.toUInt64.toFloat false m (n.log2 - 52) ∧ (m : ℚ) * 2 ^ (n.log2 - 52 : Int) = n := by
  have hnat : n.toUInt64.toNat = n := by
    rw [Nat.toUInt64, UInt64.toNat_ofNat', Nat.mod_eq_of_lt (by omega)]
  have hne : n.toUInt64 ≠ 0 := fun hzero => by
    rw [hzero] at hnat
    exact hpos.ne hnat
  obtain ⟨m, hm, hvalue⟩ := isNormal_nearestBits false (j := 0) hpos h (by decide)
  rw [toFloat_eq hne, hnat]
  exact ⟨m, by simpa using hm, by simpa using hvalue⟩

theorem le_nearestBits {N D : Nat} (hD : 0 < D) (hfull : 2 ^ 52 * D ≤ N * Power.two (-leastExponent).toNat) :
    2 ^ 52 ≤ nearestBits N D := by
  have := le_roundQuotient_stepOf hD hfull
  rw [nearestBits, infiniteBits_eq]
  simp only [Power.two_eq] at this ⊢
  omega

theorem powerOfTen_eq {k : Nat} (h : k ≤ 22) :
    Json.powerOfTen k = ofSize false (nearestBits (10 ^ k) 1) := by
  have htable : ∀ k : Fin 23, Json.powerOfTen k = ofSize false (nearestBits (10 ^ k.val) 1) := by
    decide +kernel
  exact htable ⟨k, by omega⟩

/-- The powers of ten that a number is scaled by in one step are exact up to `10 ^ 22`. -/
theorem isNormal_powerOfTen {k : Nat} (h : k ≤ 22) :
    ∃ m, IsNormal (Json.powerOfTen k) false m ((5 ^ k).log2 + k - 52) ∧
      (m : ℚ) * 2 ^ ((5 ^ k).log2 + k - 52 : Int) = 10 ^ k := by
  have hfive : 5 ^ k < 2 ^ 53 := lt_of_le_of_lt (Nat.pow_le_pow_right (by decide) h) (by norm_num)
  obtain ⟨m, hm, hvalue⟩ := isNormal_nearestBits false (j := k) (by positivity) hfive (by omega)
  rw [powerOfTen_eq h]
  refine ⟨m, by rwa [← mul_pow] at hm, hvalue.trans ?_⟩
  push_cast
  rw [← mul_pow]
  norm_num

/-- An integer of 53 bits, divided by a power of ten up to `10 ^ 22`, is rounded once. -/
theorem toFloat_div_powerOfTen {n k : Nat} (hpos : 0 < n) (h : n < 2 ^ 53) (hk : k ≤ 22) :
    n.toUInt64.toFloat / Json.powerOfTen k = ofSize false (nearestBits n (10 ^ k)) := by
  obtain ⟨m, hm, hvalue⟩ := isNormal_toFloat hpos h
  obtain ⟨m', hm', hvalue'⟩ := isNormal_powerOfTen hk
  have hlog : (5 ^ k).log2 < 53 := (Nat.log2_lt (by positivity)).mpr
    (lt_of_le_of_lt (Nat.pow_le_pow_right (by decide) hk) (by norm_num))
  rw [div_eq (N := n) (D := 10 ^ k) hm hm' (by positivity) (by rw [leastExponent]; omega), Bool.xor_self]
  rw [hvalue, hvalue']
  push_cast
  rfl

theorem toFloat_mul_powerOfTen {n k : Nat} (hpos : 0 < n) (h : n < 2 ^ 53) (hk : k ≤ 22) :
    n.toUInt64.toFloat * Json.powerOfTen k = ofSize false (nearestBits (n * 10 ^ k) 1) := by
  obtain ⟨m, hm, hvalue⟩ := isNormal_toFloat hpos h
  obtain ⟨m', hm', hvalue'⟩ := isNormal_powerOfTen hk
  rw [mul_eq (N := n * 10 ^ k) (D := 1) hm hm' one_pos (by rw [leastExponent]; omega), Bool.xor_self]
  rw [hvalue, hvalue']
  push_cast
  rw [div_one]

end Double
end HybridQuery
