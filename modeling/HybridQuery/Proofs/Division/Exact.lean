import HybridQuery.Item.Arithmetic
import HybridQuery.Proofs.Division.Truncation
import HybridQuery.Proofs.Durations.Numerals

/-!
# Integer division and remainder

On integers and decimals the remainder is exact, but for the least integer and minus one: their quotient does
not fit, and the remainder is refused with it. Integer division is exact on integers, and on decimals whose
quotient is clear of the next integer.

* `Item.division_exact`: what integer division and remainder give, and when they fail.
* `Item.division_inexact`: the quotient that is rounded, and the remainder that is refused.
-/

namespace HybridQuery

/-- The quotient of two decimals, cut to an integer towards zero. -/
def Decimal.wholeQuotient (a b : Decimal) : ℤ := towardsZero (a.value / b.value)

namespace Item

/-! ## Integers -/

theorem integerOf_of_fits {n : Int} (h : Fits64 n) (fault : Fault) :
    integerOf n fault = .ok (.integer (Int64.ofInt n)) := by
  rw [integerOf, fits64?_eq_some_iff.mpr ⟨h, rfl⟩]

theorem integerOf_of_not_fits {n : Int} (h : ¬ Fits64 n) (fault : Fault) : integerOf n fault = .fail fault := by
  have : fits64? n = none := Option.eq_none_iff_forall_ne_some.mpr fun m hm => h (fits64?_eq_some_iff.mp hm).1
  rw [integerOf, this]

theorem not_fits64_of_large {n : Int} (h : 10 ^ Decimal.integerDigits ≤ n.natAbs) : ¬ Fits64 n := by
  rw [Decimal.integerDigits] at h
  rw [Fits64]
  omega

theorem toInt_ofInt {n : Int} (h : Fits64 n) : (Int64.ofInt n).toInt = n :=
  Int64.toInt_ofInt_of_le h.1 h.2

theorem fits64_toInt (n : Int64) : Fits64 n.toInt := ⟨n.le_toInt, n.toInt_lt⟩

theorem value_ofInt_div (m n : Int) : Decimal.wholeQuotient (.ofInt m) (.ofInt n) = m.tdiv n := by
  rw [Decimal.wholeQuotient, Decimal.value_ofInt, Decimal.value_ofInt, towardsZero_intCast_div]

/-- The quotient of integers fits, but for that of the least one and minus one. -/
theorem fits64_tdiv {m n : Int} (hm : Fits64 m) (h : ¬ (m = -2 ^ 63 ∧ n = -1)) : Fits64 (m.tdiv n) := by
  rw [Fits64] at *
  by_cases htwo : 2 ≤ n.natAbs
  · have hdiv : (m.tdiv n).natAbs = m.natAbs / n.natAbs := Int.natAbs_tdiv m n
    have hhalf : m.natAbs / n.natAbs ≤ m.natAbs / 2 := Nat.div_le_div_left htwo (by decide)
    omega
  · obtain rfl | rfl | rfl : n = -1 ∨ n = 0 ∨ n = 1 := by omega
    · rw [Int.tdiv_neg, Int.tdiv_one]
      omega
    · simp
    · rwa [Int.tdiv_one]

theorem fits64_tmod {m n : Int} (hn : Fits64 n) (hne : n ≠ 0) : Fits64 (m.tmod n) := by
  have hmod := Int.natAbs_tmod m n
  have hlt := Nat.mod_lt m.natAbs (Int.natAbs_pos.mpr hne)
  rw [Fits64] at *
  omega

/-! ## Integers and decimals -/

/-- The two integers whose quotient is just out of range. -/
def LeastByMinusOne (a b : Item) : Prop := a = .integer (Int64.ofInt (-2 ^ 63)) ∧ b = .integer (Int64.ofInt (-1))

variable {a b : Item} {x y : Decimal}

/-- Integers are divided as integers, and other exact numbers as decimals. -/
theorem arithmetic_cases (ha : a.decimal? = some x) (hb : b.decimal? = some y) (op : ArithmeticOp) :
    (∃ m n, a = .integer m ∧ b = .integer n ∧ x = .ofInt m.toInt ∧ y = .ofInt n.toInt ∧
        arithmetic op a b = integerArithmetic op m.toInt n.toInt) ∨
      ((a.isInteger && b.isInteger) = false ∧ arithmetic op a b = decimalArithmetic op x y) := by
  cases a <;> cases ha <;> cases b <;> cases hb
  · exact .inl ⟨_, _, rfl, rfl, rfl, rfl, rfl⟩
  all_goals exact .inr ⟨rfl, rfl⟩

theorem value_eq_zero_iff : y.value = 0 ↔ y.isZero = true := by
  rw [Decimal.value, mul_eq_zero, Int.cast_eq_zero, or_iff_left (Decimal.ten_zpow_pos _).ne', Decimal.isZero,
    beq_iff_eq]

/-- The integer that integer division of decimals gives is at most one away from their whole quotient, and is
that quotient if it is clear. -/
theorem integerOf_truncate_divide (hy : y.isZero = false) (fault : Fault) :
    integerOf (x.divide y).truncate fault = integerOf (x.wholeQuotient y) fault ∨
      ((x.divide y).truncate.natAbs = (x.wholeQuotient y).natAbs + 1 ∧ ¬ Decimal.Clear (x.value / y.value)) := by
  have hne : y.coefficient ≠ 0 := by simpa [Decimal.isZero] using hy
  obtain h | h | ⟨hq, hr⟩ := Decimal.truncate_divide (a := x) hne
  · exact .inl (by rw [h, Decimal.wholeQuotient])
  · exact .inr h
  · exact .inl (by rw [Decimal.wholeQuotient, integerOf_of_not_fits (not_fits64_of_large hq),
      integerOf_of_not_fits (not_fits64_of_large hr)])

theorem arithmetic_integerDivide (ha : a.decimal? = some x) (hb : b.decimal? = some y) (hy : y.value ≠ 0) :
    (∃ reason, arithmetic .integerDivide a b = integerOf (x.wholeQuotient y) (.invalidArgument reason)) ∨
      ((a.isInteger && b.isInteger) = false ∧ ¬ Decimal.Clear (x.value / y.value) ∧
        ∃ n : Int, n.natAbs = (x.wholeQuotient y).natAbs + 1 ∧
          arithmetic .integerDivide a b = integerOf n .quotientRange) := by
  obtain ⟨m, n, -, -, rfl, rfl, h⟩ | ⟨hkind, h⟩ := arithmetic_cases ha hb .integerDivide
  · have hn : n.toInt ≠ 0 := by
      rwa [Decimal.value_ofInt, Int.cast_ne_zero] at hy
    rw [h, value_ofInt_div, integerArithmetic, if_neg hn]
    exact .inl ⟨_, rfl⟩
  · have hzero : y.isZero = false := Bool.eq_false_iff.mpr (mt value_eq_zero_iff.mpr hy)
    rw [h, decimalArithmetic, hzero, if_neg Bool.false_ne_true]
    obtain hsame | ⟨hnext, hnear⟩ := integerOf_truncate_divide hzero .quotientRange
    · exact .inl ⟨_, hsame⟩
    · exact .inr ⟨hkind, hnear, _, hnext, rfl⟩

theorem arithmetic_modulo (ha : a.decimal? = some x) (hb : b.decimal? = some y) (hy : y.value ≠ 0)
    (hpair : ¬ LeastByMinusOne a b) :
    ∃ r z, arithmetic .modulo a b = .ok r ∧ r.decimal? = some z ∧
      z.value = x.value - y.value * x.wholeQuotient y := by
  obtain ⟨m, n, rfl, rfl, rfl, rfl, h⟩ | ⟨-, h⟩ := arithmetic_cases ha hb .modulo
  · have hn : n.toInt ≠ 0 := by
      rwa [Decimal.value_ofInt, Int.cast_ne_zero] at hy
    have hdiv : Fits64 (m.toInt.tdiv n.toInt) := fits64_tdiv (fits64_toInt m) fun ⟨hm, hn⟩ =>
      hpair ⟨by rw [← hm, Int64.ofInt_toInt], by rw [← hn, Int64.ofInt_toInt]⟩
    have hmod : Fits64 (m.toInt.tmod n.toInt) := fits64_tmod (fits64_toInt n) hn
    rw [h, integerArithmetic, if_neg hn, fits64?_eq_some_iff.mpr ⟨hdiv, rfl⟩, if_neg (by simp),
      integerOf_of_fits hmod]
    refine ⟨_, _, rfl, rfl, ?_⟩
    rw [toInt_ofInt hmod, value_ofInt_div, Decimal.value_ofInt, Decimal.value_ofInt, Decimal.value_ofInt,
      Int.tmod_def]
    push_cast
    rfl
  · have hzero : y.isZero = false := Bool.eq_false_iff.mpr (mt value_eq_zero_iff.mpr hy)
    rw [h, decimalArithmetic, hzero, if_neg Bool.false_ne_true]
    exact ⟨_, _, rfl, rfl, Decimal.value_remainder x y⟩

/-- **Integer division and remainder.** For integers and decimals, the divisor not being zero: integer division
of integers, and of decimals whose quotient is clear of the next integer, gives the whole quotient if it fits in
64 bits, and fails if it does not; of any others it gives at most the integer next to it. The remainder is
what the divisor times the whole quotient leaves of the dividend, for any two but the least integer and minus
one. -/
theorem division_exact (ha : a.decimal? = some x) (hb : b.decimal? = some y) (hy : y.value ≠ 0) :
    ((a.isInteger && b.isInteger) = true ∨ Decimal.Clear (x.value / y.value) →
      (Fits64 (x.wholeQuotient y) →
        arithmetic .integerDivide a b = .ok (.integer (Int64.ofInt (x.wholeQuotient y)))) ∧
      (¬ Fits64 (x.wholeQuotient y) →
        ∃ reason, arithmetic .integerDivide a b = .fail (.invalidArgument reason))) ∧
    (∀ r, arithmetic .integerDivide a b = .ok r → ∃ n, r = .integer n ∧
      (n.toInt = x.wholeQuotient y ∨ n.toInt.natAbs = (x.wholeQuotient y).natAbs + 1)) ∧
    (¬ LeastByMinusOne a b → ∃ r z, arithmetic .modulo a b = .ok r ∧ r.decimal? = some z ∧
      z.value = x.value - y.value * x.wholeQuotient y) := by
  refine ⟨fun hclear => ?_, fun r hr => ?_, arithmetic_modulo ha hb hy⟩
  · obtain ⟨reason, h⟩ | ⟨hkind, hnear, -⟩ := arithmetic_integerDivide ha hb hy
    · rw [h]
      exact ⟨fun hfits => integerOf_of_fits hfits _, fun hfits => ⟨reason, integerOf_of_not_fits hfits _⟩⟩
    · exact absurd (hclear.resolve_left (by simp [hkind])) hnear
  · have hnext {n : Int} {fault : Fault} (h : integerOf n fault = .ok r) :
        ∃ m : Int64, r = .integer m ∧ m.toInt = n := by
      by_cases hfits : Fits64 n
      · rw [integerOf_of_fits hfits, Except.ok.injEq] at h
        exact ⟨_, h.symm, toInt_ofInt hfits⟩
      · rw [integerOf_of_not_fits hfits] at h
        cases h
    obtain ⟨_, h⟩ | ⟨-, -, n, hn, h⟩ := arithmetic_integerDivide ha hb hy
    · obtain ⟨m, rfl, hm⟩ := hnext (h.symm.trans hr)
      exact ⟨m, rfl, .inl hm⟩
    · obtain ⟨m, rfl, hm⟩ := hnext (h.symm.trans hr)
      exact ⟨m, rfl, .inr (by rw [hm, hn])⟩

/-- Seven and a half by two: three, and one and a half is left. -/
theorem division_exact_tenths :
    arithmetic .integerDivide (.decimal ⟨75, 1⟩) (.integer 2) = .ok (.integer 3) ∧
      ∃ r z, arithmetic .modulo (.decimal ⟨75, 1⟩) (.integer 2) = .ok r ∧ r.decimal? = some z ∧
        z.value = 3 / 2 := by
  have hy : (Decimal.ofInt (2 : Int64).toInt).value ≠ 0 := by
    rw [Decimal.value_ofInt]
    decide
  have hwhole : Decimal.wholeQuotient ⟨75, 1⟩ (.ofInt (2 : Int64).toInt) = 3 := by
    rw [Decimal.wholeQuotient, Decimal.value_div_value, towardsZero_intCast_div]
    decide
  have hexact := division_exact (a := .decimal ⟨75, 1⟩) (b := .integer 2) rfl rfl hy
  rw [hwhole] at hexact
  refine ⟨(hexact.1 (.inr (Decimal.clear_of_digits (by decide)))).1 ⟨by decide, by decide⟩, ?_⟩
  obtain ⟨r, z, hr, hz, hvalue⟩ := hexact.2.2 (by simp [LeastByMinusOne])
  refine ⟨r, z, hr, hz, ?_⟩
  have htwo : (2 : Int64).toInt = 2 := rfl
  rw [hvalue, Decimal.value_ofInt, Decimal.value, htwo]
  norm_num

/-- The quotient of a number just below three by three is rounded to one, so that integer division gives one;
and the least integer has no remainder by minus one. -/
theorem division_inexact :
    arithmetic .integerDivide (.decimal ⟨3 * 10 ^ 108 - 1, 108⟩) (.integer 3) = .ok (.integer 1) ∧
      Decimal.wholeQuotient ⟨3 * 10 ^ 108 - 1, 108⟩ (.ofInt (3 : Int64).toInt) = 0 ∧
      arithmetic .modulo (.integer (Int64.ofInt (-2 ^ 63))) (.integer (Int64.ofInt (-1))) =
        .fail .integerOverflow := by
  refine ⟨?_, ?_, rfl⟩
  · have htrunc : (Decimal.divide ⟨3 * 10 ^ 108 - 1, 108⟩ (.ofInt (3 : Int64).toInt)).truncate = 1 := by
      decide +kernel
    change integerOf (Decimal.divide ⟨3 * 10 ^ 108 - 1, 108⟩ (.ofInt (3 : Int64).toInt)).truncate
      .quotientRange = _
    rw [htrunc]
    rfl
  · rw [Decimal.wholeQuotient, Decimal.value_div_value, towardsZero_intCast_div]
    decide +kernel

end Item
end HybridQuery
