import HybridQuery.Proofs.Doubles.Operations

/-!
# Shortest digits

A double is printed with the fewest digits that round to it. Near a number of up to fifteen digits there is
no other number with as few of them, so that the number is what is printed.

* `Double.Rounding.Contains`: which numbers round to a double, and `Double.exists_contains`: what is rounded
  to a double is one of them.
* `Double.Rounding.search_eq_some`: what the search for digits finds.
* `Double.shortestMagnitude_eq`: the digits of a double near a number of fifteen digits.
* `Double.text?_nearest`: its text.
-/

namespace HybridQuery
namespace Double

/-! ## Ties -/

/-- An odd number is not reached by rounding up from a tie. -/
theorem roundQuotient_even_of_tie (num : Nat) {den : Nat} (h : 0 < den)
    (htie : 2 * roundQuotient num den * den = 2 * num + den) : roundQuotient num den % 2 = 0 := by
  have hdiv := Nat.div_add_mod num den
  have hmod := Nat.mod_lt num h
  rw [roundQuotient] at *
  generalize num / den = q at *
  generalize num % den = r at *
  subst hdiv
  split at htie
  · rename_i hup
    rw [if_pos hup]
    have : 2 * r = den := by linarith
    omega
  · rename_i hdown
    have : 2 * r + den = 0 := by linarith
    omega

/-- What is rounded lies at most half from the rounded number, and at half only from an even one. -/
theorem roundQuotient_near {den : Nat} (h : 0 < den) (num : Nat) :
    |(num : ℚ) / den - roundQuotient num den| ≤ 1 / 2 ∧
      (|(num : ℚ) / den - roundQuotient num den| = 1 / 2 → roundQuotient num den % 2 = 0) := by
  obtain ⟨hle, hge, hup⟩ := roundQuotient_bounds h num
  have hdown := roundQuotient_even_of_tie num h
  generalize roundQuotient num den = q at *
  have hden : (0 : ℚ) < den := by exact_mod_cast h
  have hvalue : (num : ℚ) = num / den * den := by field_simp
  have hle : (2 * num : ℚ) ≤ (2 * q + 1) * den := by exact_mod_cast hle
  have hge : (2 * q * den : ℚ) ≤ 2 * num + den := by exact_mod_cast hge
  generalize (num : ℚ) / den = y at *
  refine ⟨abs_le.mpr ⟨?_, ?_⟩, fun htie => ?_⟩
  · nlinarith
  · nlinarith
  · rcases abs_eq (by norm_num) |>.mp htie with htie | htie
    · refine hup ?_
      have : (2 * num : ℚ) = (2 * q + 1) * den := by
        rw [hvalue, show y = q + 1 / 2 by linarith]
        ring
      exact_mod_cast this
    · refine hdown ?_
      have : (2 * q * den : ℚ) = 2 * num + den := by
        rw [hvalue, show y = q - 1 / 2 by linarith]
        ring
      exact_mod_cast this

/-! ## The numbers that round to a double -/

namespace Rounding

/-- The numbers that round to a double: from the lower end to the upper one, the ends included if the mantissa
is even. -/
def Contains (r : Rounding) (x : ℚ) : Prop :=
  if r.closed then (r.low : ℚ) / r.den ≤ x ∧ x ≤ r.high / r.den
  else (r.low : ℚ) / r.den < x ∧ x < r.high / r.den

theorem holds_iff {r : Rounding} (hden : 0 < r.den) (c : Nat) (k : Int) :
    r.holds c k = true ↔ r.Contains (c * 10 ^ k) := by
  have hpow : (10 : ℚ) ^ k = 10 ^ k.toNat / 10 ^ (-k).toNat := by
    rw [← zpow_natCast, ← zpow_natCast, ← zpow_sub₀ (by norm_num)]
    congr 1
    omega
  have hden : (0 : ℚ) < r.den := by exact_mod_cast hden
  have hunit : (0 : ℚ) < 10 ^ (-k).toNat := by positivity
  have hle (a : Nat) : (a : ℚ) / r.den ≤ c * 10 ^ k ↔ a * 10 ^ (-k).toNat ≤ c * 10 ^ k.toNat * r.den := by
    rw [hpow, ← mul_div_assoc, div_le_div_iff₀ hden hunit]
    exact_mod_cast Iff.rfl
  have hge (a : Nat) : c * 10 ^ k ≤ (a : ℚ) / r.den ↔ c * 10 ^ k.toNat * r.den ≤ a * 10 ^ (-k).toNat := by
    rw [hpow, ← mul_div_assoc, div_le_div_iff₀ hunit hden]
    exact_mod_cast Iff.rfl
  rw [Contains, holds]
  simp only [Power.ten_eq]
  split
  · rw [Bool.and_eq_true, decide_eq_true_eq, decide_eq_true_eq, hle, hge]
  · rw [Bool.and_eq_true, decide_eq_true_eq, decide_eq_true_eq, ← not_le, ← not_le, ← not_le, ← not_le, hle, hge]

section
variable {m : Nat} {e : Int}

theorem den_of_pos (m : Nat) (e : Int) : 0 < (of m e).den := by
  change 0 < 4 * Power.two _
  rw [Power.two_eq]
  positivity

theorem value_of (m : Nat) (e : Int) : ((of m e).value : ℚ) / (of m e).den = m * 2 ^ e := by
  rw [of, zpow_eq_div two_ne_zero]
  simp only [Power.two_eq]
  push_cast
  field_simp

theorem high_of (m : Nat) (e : Int) : ((of m e).high : ℚ) / (of m e).den = (m + 1 / 2) * 2 ^ e := by
  rw [of, zpow_eq_div two_ne_zero]
  simp only [Power.two_eq]
  push_cast
  field_simp
  ring

/-- How far below a double the numbers begin that round to it, in quarters of the last bit. -/
def below (m : Nat) (e : Int) : Nat := if m = fullMantissa ∧ e > leastExponent then 1 else 2

theorem low_of (hm : 0 < m) : ((of m e).low : ℚ) / (of m e).den = (m - below m e / 4) * 2 ^ e := by
  have hle : below m e ≤ 4 * m := by
    rw [below]
    split <;> omega
  rw [of, zpow_eq_div two_ne_zero]
  simp only [Power.two_eq]
  rw [← below]
  push_cast [Nat.cast_sub hle]
  field_simp

theorem below_bounds (m : Nat) (e : Int) : 1 ≤ below m e ∧ below m e ≤ 2 := by
  rw [below]
  split <;> omega

/-- A number rounds to a double if it is not further from it than half of the last bit, and just half only if
the mantissa is even; below a power of two a quarter counts. -/
theorem contains_of {y : ℚ} (hm : 0 < m) (hlow : m - (below m e : ℚ) / 4 ≤ y) (hhigh : y ≤ m + 1 / 2)
    (hties : m % 2 = 1 → |y - m| ≠ 1 / 2) : (of m e).Contains (y * 2 ^ e) := by
  have hpow : (0 : ℚ) < 2 ^ e := by positivity
  have hclosed : (of m e).closed = decide (m % 2 = 0) := rfl
  rw [Contains, low_of hm, high_of, hclosed]
  simp only [decide_eq_true_eq, mul_le_mul_iff_of_pos_right hpow, mul_lt_mul_iff_of_pos_right hpow]
  split
  · exact ⟨hlow, hhigh⟩
  · rename_i hodd
    have hodd : m % 2 = 1 := by omega
    have hties := hties hodd
    have hbelow : below m e = 2 := by
      rw [below, if_neg]
      rintro ⟨rfl, -⟩
      rw [fullMantissa, Power.two_eq] at hodd
      norm_num at hodd
    rw [hbelow] at hlow ⊢
    refine ⟨hlow.lt_of_ne fun heq => hties ?_, hhigh.lt_of_ne fun heq => hties ?_⟩
    · rw [← heq, abs_eq (by norm_num)]
      right
      push_cast
      ring
    · rw [heq, abs_eq (by norm_num)]
      left
      ring

/-- What rounds to a double differs from it by half of the last bit at most. -/
theorem Contains.abs_sub_le {x : ℚ} (hm : 0 < m) (h : (of m e).Contains x) : |x - m * 2 ^ e| ≤ 2 ^ e / 2 := by
  have hpow : (0 : ℚ) < 2 ^ e := by positivity
  have hbelow : (below m e : ℚ) ≤ 2 := by exact_mod_cast (below_bounds m e).2
  rw [Contains, low_of hm, high_of] at h
  have hweak : (m - (below m e : ℚ) / 4) * 2 ^ e ≤ x ∧ x ≤ (m + 1 / 2) * 2 ^ e := by
    split at h
    · exact h
    · exact ⟨h.1.le, h.2.le⟩
  rw [abs_le]
  constructor <;> nlinarith

end

/-- What is rounded to a mantissa, counted in steps, rounds to its double. Below a power of two the step is smaller,
unless it is the least one. -/
theorem contains_of_near {step q : Nat} {y : ℚ} (hq : 2 ^ 52 ≤ q) (hnear : |y - q| ≤ 1 / 2)
    (hties : |y - q| = 1 / 2 → q % 2 = 0) (hfloor : 0 < step → 2 ^ 52 ≤ y) :
    (of q (leastExponent + step)).Contains (y * 2 ^ (leastExponent + step)) := by
  obtain ⟨hge, hle⟩ := abs_le.mp hnear
  refine contains_of (by omega) ?_ (by linarith) fun hodd htie => ?_
  · rcases (below_bounds q (leastExponent + step)).2.lt_or_eq with hquarter | hhalf
    · have hone : below q (leastExponent + step) = 1 := by
        have := (below_bounds q (leastExponent + step)).1
        omega
      obtain ⟨rfl, hpos⟩ : q = fullMantissa ∧ leastExponent + step > leastExponent := by
        by_contra hnot
        rw [below, if_neg hnot] at hone
        omega
      have := hfloor (by omega)
      rw [hone, fullMantissa, Power.two_eq]
      push_cast
      linarith
    · rw [hhalf]
      push_cast
      linarith
  · have := hties htie
    omega

/-- What is rounded up to a power of two rounds to the double with the next exponent. -/
theorem contains_of_carry {step : Nat} {y : ℚ} (hnear : |y - 2 ^ 53| ≤ 1 / 2) :
    (of (2 ^ 52) (leastExponent + step + 1)).Contains (y * 2 ^ (leastExponent + step)) := by
  obtain ⟨hge, hle⟩ := abs_le.mp hnear
  have hone : below (2 ^ 52) (leastExponent + step + 1) = 1 := by
    rw [below, if_pos ⟨by rw [fullMantissa, Power.two_eq], by omega⟩]
  have hhalved : y * 2 ^ (leastExponent + step) = y / 2 * 2 ^ (leastExponent + step + 1) := by
    rw [zpow_add_one₀ two_ne_zero]
    ring
  rw [hhalved]
  refine contains_of (by decide) ?_ ?_ fun hodd => absurd hodd (by decide)
  · rw [hone]
    push_cast
    linarith
  · push_cast
    linarith

end Rounding

/-- A quotient, counted in steps. -/
theorem quotient_eq_steps (N : Nat) {D : Nat} (hD : 0 < D) (step : Nat) :
    (N : ℚ) / D = (N * Power.two (-leastExponent).toNat : Nat) / (D * 2 ^ step : Nat) *
      2 ^ (leastExponent + step) := by
  have hpow : (2 : ℚ) ^ (leastExponent + step) = 2 ^ step / 2 ^ (-leastExponent).toNat := by
    rw [← zpow_natCast, ← zpow_natCast, ← zpow_sub₀ (by norm_num)]
    congr 1
  have hD : (D : ℚ) ≠ 0 := by exact_mod_cast hD.ne'
  rw [hpow, Power.two_eq]
  push_cast
  field_simp

/-- **What is rounded to a normal double rounds to it.** -/
theorem exists_contains (negative : Bool) {N D : Nat} (hD : 0 < D)
    (hfull : 2 ^ 52 * D ≤ N * Power.two (-leastExponent).toNat) (hfinite : nearestBits N D < infiniteBits) :
    ∃ m e, IsNormal (ofSize negative (nearestBits N D)) negative m e ∧
      (Rounding.of m e).Contains (N / D) := by
  have hbits : nearestBits N D = stepOf (N * Power.two (-leastExponent).toNat) D * 2 ^ 52 +
      roundQuotient (N * Power.two (-leastExponent).toNat)
        (D * 2 ^ stepOf (N * Power.two (-leastExponent).toNat) D) := by
    rw [nearestBits] at hfinite ⊢
    simp only [Power.two_eq] at hfinite ⊢
    omega
  rw [hbits] at hfinite ⊢
  have hvalue := quotient_eq_steps N hD
  generalize N * Power.two (-leastExponent).toNat = units at *
  have hlow := le_roundQuotient_stepOf hD hfull
  have hhigh := roundQuotient_step_le units hD
  have hstep (h : 0 < stepOf units D) := (le_stepOf_iff hD h).mp le_rfl
  generalize stepOf units D = step at *
  obtain ⟨hnear, hties⟩ := roundQuotient_near (show 0 < D * 2 ^ step by positivity) units
  generalize roundQuotient units (D * 2 ^ step) = q at *
  have hnormal := isNormal_ofSize negative (by omega) hfinite
  have hfloor (h : 0 < step) : (2 ^ 52 : ℚ) ≤ units / (D * 2 ^ step : Nat) := by
    rw [le_div_iff₀ (by positivity)]
    have := hstep h
    rw [mul_right_comm, mul_assoc] at this
    exact_mod_cast this
  have hleast : leastExponent = -1074 := rfl
  rw [hvalue step]
  rcases hhigh.lt_or_eq with hlt | rfl
  · refine ⟨q, leastExponent + step, ?_, Rounding.contains_of_near hlow hnear hties hfloor⟩
    convert hnormal using 1
    · omega
    · omega
  · rw [Nat.cast_pow, Nat.cast_ofNat] at hnear
    refine ⟨2 ^ 52, leastExponent + step + 1, ?_, Rounding.contains_of_carry hnear⟩
    convert hnormal using 1
    · omega
    · omega

/-! ## Searching for the shortest digits -/

namespace Rounding

variable {r : Rounding}

/-- A grid on which no number rounds to the double is passed over. -/
theorem onGrid?_eq_none {k : Int} (h : ∀ c, r.holds c k = false) : r.onGrid? k = none := by
  rw [onGrid?]
  simp only [h, Bool.false_eq_true, if_false]

/-- What is nearer to a multiple than half a step lies just above the multiple or just below it. -/
theorem quotient_of_near {a step n : Nat} (hstep : 0 < step) (hnear : 2 * |(a : Int) - n * step| < step) :
    a / step = n ∧ 2 * (a % step) < step ∨ a / step + 1 = n ∧ step < 2 * (a % step) := by
  have hdiv := Nat.div_add_mod a step
  have hmod := Nat.mod_lt a hstep
  generalize a / step = c at *
  generalize a % step = rest at *
  have ha : (a : Int) = step * c + rest := by exact_mod_cast hdiv.symm
  have hrest : (rest : Int) < step := by exact_mod_cast hmod
  have hzero : (0 : Int) ≤ rest := Int.natCast_nonneg rest
  obtain ⟨hlow, hhigh⟩ := abs_lt.mp (show |2 * ((a : Int) - n * step)| < step by
    rwa [abs_mul, abs_of_pos (by norm_num : (0 : Int) < 2)])
  rw [ha] at hlow hhigh
  have hle : (c : Int) ≤ n := by
    by_contra hlt
    nlinarith
  have hge : (n : Int) ≤ c + 1 := by
    by_contra hlt
    nlinarith
  rcases hle.lt_or_eq with hlt | heq
  · obtain rfl : n = c + 1 := by omega
    push_cast at hlow
    exact .inr ⟨rfl, by zify; linarith⟩
  · obtain rfl : c = n := by exact_mod_cast heq
    exact .inl ⟨rfl, by zify; linarith⟩

/-- A number of a grid that rounds to the double is found if the double is nearer to it than half a step. -/
theorem onGrid?_eq_some {n : Nat} {k : Int} (hden : 0 < r.den) (hholds : r.holds n k = true)
    (hnear : |(r.value : ℚ) / r.den - n * 10 ^ k| < 10 ^ k / 2) : r.onGrid? k = some n := by
  have hstep : 0 < 10 ^ k.toNat * r.den := by positivity
  have hnat : 2 * |((r.value * 10 ^ (-k).toNat : Nat) : Int) - n * (10 ^ k.toNat * r.den : Nat)| <
      (10 ^ k.toNat * r.den : Nat) := by
    have hpow : (10 : ℚ) ^ k * 10 ^ (-k).toNat = 10 ^ k.toNat := by
      rw [← zpow_natCast, ← zpow_natCast, ← zpow_add₀ (by norm_num)]
      congr 1
      omega
    have hden' : (0 : ℚ) < r.den := by exact_mod_cast hden
    have hscale : (0 : ℚ) < r.den * 10 ^ (-k).toNat := by positivity
    have hscaled := mul_lt_mul_of_pos_right hnear hscale
    rw [← abs_of_pos hscale, ← abs_mul, abs_of_pos hscale] at hscaled
    have hleft : ((r.value : ℚ) / r.den - n * 10 ^ k) * (r.den * 10 ^ (-k).toNat) =
        r.value * 10 ^ (-k).toNat - n * (10 ^ k.toNat * r.den) := by
      rw [← hpow]
      field_simp
    have hright : (10 : ℚ) ^ k / 2 * (r.den * 10 ^ (-k).toNat) = 10 ^ k.toNat * r.den / 2 := by
      rw [← hpow]
      ring
    rw [hleft, hright] at hscaled
    have : 2 * |(r.value : ℚ) * 10 ^ (-k).toNat - n * (10 ^ k.toNat * r.den)| < 10 ^ k.toNat * r.den := by
      linarith
    exact_mod_cast this
  rw [onGrid?]
  simp only [Power.ten_eq]
  rcases quotient_of_near hstep hnat with ⟨hquotient, hrest⟩ | ⟨hquotient, hrest⟩
  · simp only [hrest.ne, gt_iff_lt, hrest.not_gt, if_false, hquotient, hholds, if_true]
  · simp only [hrest.ne', gt_iff_lt, hrest, if_false, hquotient, hholds, if_true]

/-- The search stops at the first grid on which a number rounds to the double. -/
theorem search_eq_some {n : Nat} {k : Int} (hk : r.onGrid? k = some n) :
    ∀ {fuel : Nat} {start : Int}, k ≤ start → start - k < fuel →
      (∀ j, k < j → j ≤ start → r.onGrid? j = none) → r.search fuel start = some ⟨n, -k⟩
  | 0, start, hle, hfuel, _ => by omega
  | fuel + 1, start, hle, hfuel, hcoarse => by
    rw [search]
    rcases hle.lt_or_eq with hlt | rfl
    · rw [hcoarse start hlt le_rfl]
      exact search_eq_some hk (by omega) (by omega) fun j hj hjs => hcoarse j hj (by omega)
    · rw [hk]

end Rounding

/-- The leading digit of a quotient that is not too small. -/
theorem leadingPosition_bounds {num den : Nat} (hden : 0 < den) (h : den ≤ num * 10 ^ 340) :
    (10 : ℚ) ^ leadingPosition num den ≤ num / den ∧ (num : ℚ) / den < 10 ^ (leadingPosition num den + 1) := by
  have hdenq : (0 : ℚ) < den := by exact_mod_cast hden
  have hne : num * 10 ^ 340 / den ≠ 0 := (Nat.div_pos h hden).ne'
  have hlow := Decimal.pow_digitCount_le hne
  have hhigh := Decimal.lt_ten_pow_digitCount (num * 10 ^ 340 / den)
  have hpos := Decimal.digitCount_pos (num * 10 ^ 340 / den)
  rw [Nat.le_div_iff_mul_le hden] at hlow
  rw [Nat.div_lt_iff_lt_mul hden] at hhigh
  have hposition : leadingPosition num den = Decimal.digitCount (num * 10 ^ 340 / den) - 1 - 340 := by
    rw [leadingPosition, Power.ten_eq]
    rfl
  generalize Decimal.digitCount (num * 10 ^ 340 / den) = count at *
  have hpow (n : Nat) (j : Int) (hj : j = n - 340) : (10 : ℚ) ^ j = 10 ^ n / 10 ^ 340 := by
    rw [hj, zpow_sub₀ (by norm_num), zpow_natCast]
    rfl
  rw [hpow (count - 1) _ (by omega), hpow count _ (by omega), div_le_div_iff₀ (by positivity) hdenq,
    div_lt_div_iff₀ hdenq (by positivity)]
  exact ⟨by exact_mod_cast hlow, by exact_mod_cast hhigh⟩

/-! ## Numbers of fifteen digits -/

section
variable {m c : Nat} {s e : Int}

/-- The last bit of a double, compared with the last digit of a number that rounds to it. -/
theorem lastBit_le (hm : 2 ^ 52 ≤ m) (h : (Rounding.of m e).Contains (c * 10 ^ (-s))) :
    (2 ^ 52 - 1 / 2) * (2 ^ e * 10 ^ s) ≤ (c : ℚ) := by
  have hdistance := abs_le.mp (h.abs_sub_le (by omega))
  have hpow : (0 : ℚ) < 2 ^ e := by positivity
  have hten : (0 : ℚ) < 10 ^ s := by positivity
  have hm : (2 ^ 52 : ℚ) ≤ m := by exact_mod_cast hm
  have hscaled : (2 ^ 52 - 1 / 2) * 2 ^ e ≤ (c : ℚ) / 10 ^ s := by
    rw [zpow_neg, ← div_eq_mul_inv] at hdistance
    nlinarith [hdistance.1]
  rw [le_div_iff₀ hten] at hscaled
  linarith

/-- The last bit of a double near a number of fifteen digits is smaller than a quarter of the last digit. -/
theorem lastBit_lt (hm : 2 ^ 52 ≤ m) (hlt : c < 10 ^ 15) (h : (Rounding.of m e).Contains (c * 10 ^ (-s))) :
    (2 : ℚ) ^ e * 10 ^ s < 1 / 4 := by
  have hle := lastBit_le hm h
  have hlt : (c : ℚ) < 10 ^ 15 := by exact_mod_cast hlt
  linarith

/-- On a grid that is too coarse for the last digit no number rounds to the double. -/
theorem holds_coarse (hm : 2 ^ 52 ≤ m) (hlt : c < 10 ^ 15) (hten : c % 10 ≠ 0)
    (h : (Rounding.of m e).Contains (c * 10 ^ (-s))) {k : Int} (hk : -s < k) (n : Nat) :
    (Rounding.of m e).holds n k = false := by
  rw [← Bool.not_eq_true, Rounding.holds_iff (Rounding.den_of_pos m e)]
  intro hn
  obtain ⟨j, rfl⟩ : ∃ j : Nat, k = j + 1 - s := ⟨(k + s - 1).toNat, by omega⟩
  have hpow : (10 : ℚ) ^ (j + 1 - s : Int) * 10 ^ s = 10 ^ (j + 1) := by
    rw [← zpow_natCast, ← zpow_add₀ (by norm_num)]
    congr 1
    push_cast
    omega
  have hscale : (0 : ℚ) < 10 ^ s := by positivity
  have hdistance := h.abs_sub_le (by omega)
  have hdistance' := hn.abs_sub_le (by omega)
  have hclose : |(n * 10 ^ (j + 1 - s : Int) - c * 10 ^ (-s) : ℚ)| ≤ 2 ^ e := by
    rw [abs_le] at *
    constructor <;> linarith
  have hscaled : |(n * 10 ^ (j + 1) - c : ℚ)| < 1 := by
    rw [show (n * 10 ^ (j + 1) - c : ℚ) = (n * 10 ^ (j + 1 - s : Int) - c * 10 ^ (-s)) * 10 ^ s by
      rw [sub_mul, mul_assoc, hpow, zpow_neg]
      field_simp, abs_mul, abs_of_pos hscale]
    have := lastBit_lt hm hlt h
    nlinarith
  have hint : |(n * 10 ^ (j + 1) - c : Int)| < 1 := by exact_mod_cast hscaled
  have heq : c = n * 10 ^ (j + 1) := by
    have := Int.abs_lt_one_iff.mp hint
    have : (c : Int) = n * 10 ^ (j + 1) := by omega
    exact_mod_cast this
  rw [heq, pow_succ, ← mul_assoc, Nat.mul_mod_left] at hten
  exact hten rfl

/-- On its own grid, and on finer ones where it has as few digits, the number is found. -/
theorem onGrid?_fine (hm : 2 ^ 52 ≤ m) (h : (Rounding.of m e).Contains (c * 10 ^ (-s))) {j : Nat}
    (hlt : c * 10 ^ j < 10 ^ 15) : (Rounding.of m e).onGrid? (-s - j) = some (c * 10 ^ j) := by
  have hpow : (10 : ℚ) ^ (-s - j : Int) * 10 ^ j = 10 ^ (-s) := by
    rw [← zpow_natCast, ← zpow_add₀ (by norm_num), sub_add_cancel]
  have hvalue : ((c * 10 ^ j : Nat) : ℚ) * 10 ^ (-s - j : Int) = c * 10 ^ (-s) := by
    rw [← hpow]
    push_cast
    ring
  have hden := Rounding.den_of_pos m e
  refine Rounding.onGrid?_eq_some hden ?_ ?_
  · rw [Rounding.holds_iff hden, hvalue]
    exact h
  · rw [hvalue, Rounding.value_of, abs_sub_comm]
    refine lt_of_le_of_lt (h.abs_sub_le (by omega)) ?_
    have hle := lastBit_le hm h
    have hlt : (c * 10 ^ j : ℚ) < 10 ^ 15 := by exact_mod_cast hlt
    have hscale : (0 : ℚ) < 10 ^ j := by positivity
    have hunit : (0 : ℚ) < 10 ^ s := by positivity
    rw [div_lt_div_iff_of_pos_right (by norm_num), zpow_sub₀ (by norm_num), zpow_neg, zpow_natCast,
      lt_div_iff₀ hscale, ← one_div, lt_div_iff₀ hunit]
    nlinarith

theorem normalized_of_mod (hten : c % 10 ≠ 0) (s : Int) : (⟨c, s⟩ : Decimal).normalized = ⟨c, s⟩ := by
  obtain ⟨fuel, hfuel⟩ := Nat.exists_eq_add_of_lt (Decimal.digitCount_pos c)
  rw [Decimal.normalized, if_neg (show (c : Int) ≠ 0 by omega), Int.natAbs_natCast, hfuel, Nat.zero_add,
    Decimal.stripZeros, if_neg (show (c : Int) % 10 ≠ 0 by omega)]

/-- Counted in the last digit of a number of fifteen digits, a double near it is almost the number. -/
theorem abs_scaled_sub_lt (hm : 2 ^ 52 ≤ m) (hlt : c < 10 ^ 15)
    (h : (Rounding.of m e).Contains (c * 10 ^ (-s))) : |(m * 2 ^ e * 10 ^ s - c : ℚ)| < 1 / 8 := by
  have hpow : (0 : ℚ) < 10 ^ s := by positivity
  have hdistance := h.abs_sub_le (by omega)
  have := lastBit_lt hm hlt h
  rw [abs_sub_comm] at hdistance
  rw [show (m * 2 ^ e * 10 ^ s - c : ℚ) = (m * 2 ^ e - c * 10 ^ (-s)) * 10 ^ s by
    rw [zpow_neg]
    field_simp, abs_mul, abs_of_pos hpow]
  nlinarith

theorem le_value_mul_margin (hm : 2 ^ 52 ≤ m) (hpos : 0 < c) (hlt : c < 10 ^ 15) (hs : s ≤ 300)
    (h : (Rounding.of m e).Contains (c * 10 ^ (-s))) :
    (Rounding.of m e).den ≤ (Rounding.of m e).value * 10 ^ 340 := by
  have hone : (1 : ℚ) ≤ c := by exact_mod_cast hpos
  have hnear := abs_lt.mp (abs_scaled_sub_lt hm hlt h)
  have hden : (0 : ℚ) < (Rounding.of m e).den := by exact_mod_cast Rounding.den_of_pos m e
  have hvalue := (div_eq_iff hden.ne').mp (Rounding.value_of m e)
  have hsplit : (10 : ℚ) ^ 340 = 10 ^ s * 10 ^ (340 - s) := by
    rw [← zpow_add₀ (by norm_num), add_sub_cancel]
    rfl
  have hmargin := zpow_le_zpow_right₀ (show (1 : ℚ) ≤ 10 by norm_num) (show 1 ≤ 340 - s by omega)
  rw [zpow_one] at hmargin
  have hlarge : (1 : ℚ) ≤ m * 2 ^ e * 10 ^ 340 :=
    calc (1 : ℚ) ≤ 7 / 8 * 10 := by norm_num
      _ ≤ m * 2 ^ e * 10 ^ s * 10 ^ (340 - s) := by gcongr; linarith
      _ = m * 2 ^ e * 10 ^ 340 := by rw [hsplit, mul_assoc]
  have : ((Rounding.of m e).den : ℚ) ≤ (Rounding.of m e).value * 10 ^ 340 := by
    rw [hvalue, mul_right_comm]
    exact le_mul_of_one_le_left hden.le hlarge
  exact_mod_cast this

/-- The search for a number of fifteen digits begins on its own grid or on a coarser one, by fourteen places
at most. For a power of ten it may begin on the next finer one. -/
theorem leadingPosition_of_contains (hm : 2 ^ 52 ≤ m) (hpos : 0 < c) (hlt : c < 10 ^ 15) (hs : s ≤ 300)
    (h : (Rounding.of m e).Contains (c * 10 ^ (-s))) :
    let start := leadingPosition (Rounding.of m e).value (Rounding.of m e).den
    start + s < 15 ∧ (0 ≤ start + s ∨ start + s = -1 ∧ c = 1) := by
  intro start
  have hpow : (0 : ℚ) < 10 ^ s := by positivity
  have hone : (1 : ℚ) ≤ c := by exact_mod_cast hpos
  have hbelow : (c : ℚ) + 1 ≤ 10 ^ 15 := by exact_mod_cast hlt
  obtain ⟨hlow, hhigh⟩ := abs_lt.mp (abs_scaled_sub_lt hm hlt h)
  obtain ⟨hle, hgt⟩ := leadingPosition_bounds (Rounding.den_of_pos m e) (le_value_mul_margin hm hpos hlt hs h)
  rw [Rounding.value_of] at hle hgt
  have hle := mul_le_mul_of_nonneg_right hle hpow.le
  have hgt := mul_lt_mul_of_pos_right hgt hpow
  rw [← zpow_add₀ (by norm_num)] at hle hgt
  have hten : (1 : ℚ) ≤ 10 := by norm_num
  constructor
  · by_contra hnot
    have := zpow_le_zpow_right₀ hten (not_lt.mp hnot)
    norm_num at this
    linarith
  · by_contra hnot
    have hnot := not_or.mp hnot
    rcases lt_trichotomy (start + s) (-1) with hlast | hlast | hlast
    · have := zpow_le_zpow_right₀ hten (show start + 1 + s ≤ -1 by omega)
      norm_num at this
      linarith
    · rw [show start + 1 + s = 0 by omega, zpow_zero] at hgt
      have hc : (c : ℚ) < 2 := by linarith
      have hc : c < 2 := by exact_mod_cast hc
      exact hnot.2 ⟨hlast, by omega⟩
    · omega

/-- **The shortest digits of a double near a number of fifteen digits are the digits of that number.** -/
theorem shortestMagnitude_eq (hm : 2 ^ 52 ≤ m) (hlt : c < 10 ^ 15) (hten : c % 10 ≠ 0) (hs : s ≤ 300)
    (h : (Rounding.of m e).Contains (c * 10 ^ (-s))) : shortestMagnitude m e = ⟨c, s⟩ := by
  obtain ⟨hfirst, hlast⟩ := leadingPosition_of_contains hm (by omega) hlt hs h
  rw [shortestMagnitude, if_neg (by omega)]
  dsimp only
  generalize leadingPosition (Rounding.of m e).value (Rounding.of m e).den = start at *
  rcases hlast with hgrid | ⟨hgrid, rfl⟩
  · have hfound := onGrid?_fine (j := 0) hm h (by omega)
    rw [Nat.cast_zero, sub_zero, pow_zero, mul_one] at hfound
    rw [Rounding.search_eq_some hfound (by omega) (by omega) fun k hk _ =>
      Rounding.onGrid?_eq_none (holds_coarse hm hlt hten h hk), neg_neg]
    exact normalized_of_mod hten s
  · -- the double of a power of ten may lie below it, where there is one digit more
    have hfound := onGrid?_fine (j := 1) hm h (by norm_num)
    rw [show -s - (1 : Nat) = start by push_cast; omega] at hfound
    rw [Rounding.search_eq_some hfound le_rfl (by omega) fun k hk hk' => by omega,
      show -start = s + 1 by omega]
    change (⟨10, s + 1⟩ : Decimal).normalized = ⟨1, s⟩
    rw [Decimal.normalized, if_neg (show (10 : Int) ≠ 0 by decide),
      show Decimal.digitCount (Int.natAbs 10) = 2 from rfl, Decimal.stripZeros,
      if_pos (show (10 : Int) % 10 = 0 by decide), Decimal.stripZeros,
      if_neg (show ¬(10 : Int) / 10 % 10 = 0 by decide), add_sub_cancel_right]
    rfl

/-- The text of the double nearest to a number of fifteen digits is written with those digits. -/
theorem text?_nearest (negative : Bool) {N D : Nat} (hD : 0 < D)
    (hfull : 2 ^ 52 * D ≤ N * Power.two (-leastExponent).toNat) (hfinite : nearestBits N D < infiniteBits)
    (hvalue : (N : ℚ) / D = c * 10 ^ (-s)) (hlt : c < 10 ^ 15) (hten : c % 10 ≠ 0) (hs : s ≤ 300) :
    text? (ofSize negative (nearestBits N D)) = some (finiteText negative ⟨c, s⟩) := by
  obtain ⟨m, e, hnormal, hcontains⟩ := exists_contains negative hD hfull hfinite
  rw [hvalue] at hcontains
  rw [text?, hnormal.denote_eq]
  dsimp only
  rw [shortestMagnitude_eq hnormal.low hlt hten hs hcontains]

end

end Double
end HybridQuery
