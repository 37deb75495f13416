import Mathlib.Algebra.Order.Field.Power
import Mathlib.Algebra.Order.Field.Rat
import Mathlib.Order.Compare
import Mathlib.Tactic.Positivity
import HybridQuery.Proofs.Digests
import HybridQuery.Proofs.Ordering.Runs

/-!
# The order of atomics

Numbers that are no doubles compare as the rational numbers they stand for, and every other kind has a
total order of its own; null comes before all of them. So the comparison of atomics is coherent, though
it has no answer for two kinds. Doubles are left out: next to an infinite one decimals are rounded,
which is no order.

* `Decimal.compare_eq`: decimals compare as their values.
* `Item.coherent_compare`: the comparison of atomics that are no doubles is coherent.
* `Item.compare_eq_error_iff`: which atomics do not compare.
-/

namespace HybridQuery

/-! ## Decimals -/

namespace Decimal

/-- The rational number that a decimal stands for. -/
def value (d : Decimal) : ℚ := d.coefficient * 10 ^ (-d.scale)

theorem ten_zpow_pos (n : Int) : (0 : ℚ) < 10 ^ n := zpow_pos (by norm_num) n

/-- The value of a decimal through its coefficient at a scale that is not less than its own. -/
theorem value_eq_coefficientAt (d : Decimal) {s : Int} (hs : d.scale ≤ s) :
    d.value = d.coefficientAt s * 10 ^ (-s) := by
  obtain ⟨n, rfl⟩ : ∃ n : Nat, s = d.scale + n := ⟨(s - d.scale).toNat, by omega⟩
  have hn : (d.scale + n - d.scale).toNat = n := by omega
  have hten : ((Power.ten n : Nat) : ℚ) = 10 ^ n := by simp [Power.ten]
  rw [value, coefficientAt, hn, Int.cast_mul, Int.cast_natCast, hten, neg_add,
    zpow_add₀ (by norm_num), mul_assoc, mul_left_comm ((10 : ℚ) ^ n), zpow_neg _ (n : ℤ),
    zpow_natCast, mul_inv_cancel₀ (by positivity), mul_one]

/-- The size of a decimal as a quotient of integers. -/
theorem abs_value_mul (d : Decimal) :
    |d.value| * Power.ten d.scale.toNat = d.coefficient.natAbs * Power.ten (-d.scale).toNat := by
  have hscale : (10 : ℚ) ^ (-d.scale) * 10 ^ d.scale.toNat = 10 ^ (-d.scale).toNat := by
    rw [← zpow_natCast, ← zpow_natCast, ← zpow_add₀ (by norm_num)]
    congr 1
    omega
  rw [Power.ten_eq, Power.ten_eq, value, abs_mul, abs_of_pos (ten_zpow_pos _), ← Int.cast_abs,
    ← Nat.cast_natAbs]
  push_cast
  rw [mul_assoc, hscale]

/-- The position of the leading digit bounds the size of a number. -/
theorem abs_value_lt (d : Decimal) : |d.value| < 10 ^ d.magnitude := by
  have hlt : (d.coefficient.natAbs : ℚ) < 10 ^ digitCount d.coefficient.natAbs := by
    exact_mod_cast lt_ten_pow_digitCount d.coefficient.natAbs
  rw [value, abs_mul, abs_of_pos (ten_zpow_pos _), magnitude, sub_eq_add_neg, zpow_add₀ (by norm_num),
    zpow_natCast, ← Int.cast_abs, ← Nat.cast_natAbs]
  exact mul_lt_mul_of_pos_right hlt (ten_zpow_pos _)

theorem le_abs_value {d : Decimal} (h : d.coefficient ≠ 0) : 10 ^ (d.magnitude - 1) ≤ |d.value| := by
  have hcount : 1 ≤ digitCount d.coefficient.natAbs := Nat.length_toDigits_pos
  have hle : (10 : ℚ) ^ (digitCount d.coefficient.natAbs - 1) ≤ d.coefficient.natAbs := by
    exact_mod_cast pow_digitCount_le (Int.natAbs_ne_zero.mpr h)
  have hmagnitude : d.magnitude - 1 = (digitCount d.coefficient.natAbs - 1 : Nat) + -d.scale := by
    rw [magnitude]
    omega
  rw [value, abs_mul, abs_of_pos (ten_zpow_pos _), hmagnitude, zpow_add₀ (by norm_num),
    zpow_natCast, ← Int.cast_abs, ← Nat.cast_natAbs]
  exact mul_le_mul_of_nonneg_right hle (ten_zpow_pos _).le

/-- A number with a leading digit further left is larger in size. -/
theorem abs_value_lt_of_magnitude {a b : Decimal} (hb : b.coefficient ≠ 0)
    (h : a.magnitude < b.magnitude) : |a.value| < |b.value| :=
  calc |a.value| < 10 ^ a.magnitude := abs_value_lt a
    _ ≤ 10 ^ (b.magnitude - 1) := zpow_le_zpow_right₀ (by norm_num) (by omega)
    _ ≤ |b.value| := le_abs_value hb

theorem value_pos {d : Decimal} (h : 0 < d.coefficient) : 0 < d.value :=
  mul_pos (Int.cast_pos.mpr h) (ten_zpow_pos _)

theorem value_neg {d : Decimal} (h : d.coefficient < 0) : d.value < 0 :=
  mul_neg_of_neg_of_pos (Int.cast_lt_zero.mpr h) (ten_zpow_pos _)

theorem value_zero {d : Decimal} (h : d.coefficient = 0) : d.value = 0 := by simp [value, h]

theorem value_lt_of_sign_lt {a b : Decimal} (h : a.coefficient.sign < b.coefficient.sign) :
    a.value < b.value := by
  rcases lt_trichotomy a.coefficient 0 with ha | ha | ha <;>
    rcases lt_trichotomy b.coefficient 0 with hb | hb | hb
  case inl.inr.inl => exact (value_neg ha).trans_eq (value_zero hb).symm
  case inl.inr.inr => exact (value_neg ha).trans (value_pos hb)
  case inr.inl.inr.inr => exact (value_zero ha).trans_lt (value_pos hb)
  all_goals
    simp [Int.sign_eq_one_of_pos, Int.sign_eq_neg_one_of_neg, ha, hb] at h

/-- What is less, equal and greater on one side is so on the other. -/
theorem compare_congr {α β : Type} [LinearOrder α] [LinearOrder β] {x y : α} {x' y' : β}
    (hlt : x < y → x' < y') (heq : x = y → x' = y') (hgt : y < x → y' < x') :
    Ord.compare x y = Ord.compare x' y' := by
  rcases lt_trichotomy x y with h | h | h
  · rw [compare_lt_iff_lt.mpr h, compare_lt_iff_lt.mpr (hlt h)]
  · rw [compare_eq_iff_eq.mpr h, compare_eq_iff_eq.mpr (heq h)]
  · rw [compare_gt_iff_gt.mpr h, compare_gt_iff_gt.mpr (hgt h)]

/-- **Decimals compare as the numbers they stand for**, at whatever scales they are written. -/
theorem compare_eq (a b : Decimal) : a.compare b = Ord.compare a.value b.value := by
  unfold compare
  split
  · rename_i hsign
    exact compare_congr value_lt_of_sign_lt (fun h => absurd h hsign) value_lt_of_sign_lt
  rename_i hsign
  have hsign : a.coefficient.sign = b.coefficient.sign := not_not.mp hsign
  split
  · rename_i ha
    rw [ha, Int.sign_zero, eq_comm, Int.sign_eq_zero_iff_zero] at hsign
    exact (compare_eq_iff_eq.mpr ((value_zero ha).trans (value_zero hsign).symm)).symm
  rename_i ha
  have hb : b.coefficient ≠ 0 := fun hb => by
    rw [hb, Int.sign_zero, Int.sign_eq_zero_iff_zero] at hsign
    exact ha hsign
  split
  · rename_i hmagnitude
    split
    · rename_i hpos
      have hpos' : 0 < b.coefficient := by
        rwa [← Int.sign_eq_one_iff_pos, ← hsign, Int.sign_eq_one_iff_pos]
      refine compare_congr (fun h => ?_) (fun h => absurd h hmagnitude) fun h => ?_
      · simpa [abs_of_pos (value_pos hpos), abs_of_pos (value_pos hpos')] using
          abs_value_lt_of_magnitude hb h
      · simpa [abs_of_pos (value_pos hpos), abs_of_pos (value_pos hpos')] using
          abs_value_lt_of_magnitude ha h
    · rename_i hpos
      have hneg : a.coefficient < 0 := by omega
      have hneg' : b.coefficient < 0 := by
        rwa [← Int.sign_eq_neg_one_iff_neg, ← hsign, Int.sign_eq_neg_one_iff_neg]
      refine compare_congr (fun h => ?_) (fun h => absurd h.symm hmagnitude) fun h => ?_
      · simpa [abs_of_neg (value_neg hneg), abs_of_neg (value_neg hneg')] using
          abs_value_lt_of_magnitude ha h
      · simpa [abs_of_neg (value_neg hneg), abs_of_neg (value_neg hneg')] using
          abs_value_lt_of_magnitude hb h
  · have hpower := ten_zpow_pos (-(max a.scale b.scale))
    rw [value_eq_coefficientAt a (le_max_left _ _), value_eq_coefficientAt b (le_max_right _ _)]
    exact compare_congr (fun h => mul_lt_mul_of_pos_right (Int.cast_lt.mpr h) hpower)
      (fun h => by rw [h]) fun h => mul_lt_mul_of_pos_right (Int.cast_lt.mpr h) hpower

instance : Std.TransCmp Decimal.compare := by
  rw [show Decimal.compare = compareOn value from funext₂ compare_eq]
  infer_instance

end Decimal

/-! ## Doubles -/

instance : Std.OrientedCmp Double.compare where
  eq_swap {a b} := by
    unfold Double.compare
    split
    · rename_i ha hb
      rw [hb, ha]
      exact Std.OrientedCmp.eq_swap
    · rename_i x y hfinite
      split
      · rename_i hb ha
        exact (hfinite _ _ _ _ _ _ ha hb).elim
      · exact Std.OrientedOrd.eq_swap

/-! ## Points in time -/

instance : Std.TransCmp Date.compare :=
  inferInstanceAs (Std.TransCmp
    (compareLex (compareOn Date.year) (compareLex (compareOn Date.month) (compareOn Date.day))))

instance : Std.TransCmp ZonedTime.compare :=
  inferInstanceAs (Std.TransCmp
    (compareLex (compareOn ZonedTime.utcSecond) (compareOn fun t : ZonedTime => t.clock.nano)))

instance : Std.TransCmp DateTime.compare :=
  inferInstanceAs (Std.TransCmp
    (compareLex (compareOn DateTime.day) (compareLex (compareOn fun t : DateTime => t.clock.second)
      (compareOn fun t : DateTime => t.clock.nano))))

instance : Std.TransCmp Duration.compare :=
  inferInstanceAs (Std.TransCmp (compareOn Duration.nanos))

/-! ## Atomics -/

namespace Item

instance : Std.TransCmp compareStrings := inferInstanceAs (Std.TransOrd String)

/-- An atomic other than a double. -/
structure IsExactAtomic (i : Item) : Prop where
  isAtomic : i.isAtomic = true
  ne_double : ∀ d, i ≠ .double d

theorem compareAlike?_swap {a b : Item} {o : Ordering} (h : compareAlike? a b = some o) :
    compareAlike? b a = some o.swap := by
  unfold compareAlike? at h
  split at h <;> cases h
  all_goals exact congrArg some Std.OrientedCmp.eq_swap

theorem compareAlike?_trans {a b c : Item} {o o' : Ordering} (hab : compareAlike? a b = some o)
    (hbc : compareAlike? b c = some o') (ho : o.isLE = true) (ho' : o'.isLE = true) :
    ∃ o'', compareAlike? a c = some o'' ∧ o''.isLE = true := by
  unfold compareAlike? at hab
  split at hab <;> cases hab
  all_goals
    cases c <;> cases hbc
    exact ⟨_, rfl, Std.TransCmp.isLE_trans ho ho'⟩

theorem kinds_of_compareAlike? {a b : Item} {o : Ordering} (h : compareAlike? a b = some o) :
    (a.isNull = false ∧ a.isNumeric = false) ∧ b.isNull = false ∧ b.isNumeric = false := by
  unfold compareAlike? at h
  split at h <;> cases h
  all_goals exact ⟨⟨rfl, rfl⟩, rfl, rfl⟩

theorem isNull_of_isNumeric {i : Item} (h : i.isNumeric = true) : i.isNull = false := by
  cases i <;> first | rfl | cases h

theorem IsExactAtomic.exactValue?_of_isNumeric {i : Item} (hi : i.IsExactAtomic)
    (hn : i.isNumeric = true) : ∃ x, i.exactValue? = some x := by
  cases i with
  | integer n => exact ⟨_, rfl⟩
  | decimal d => exact ⟨_, rfl⟩
  | double d => exact absurd rfl (hi.ne_double d)
  | _ => cases hn

theorem compareNumbers_swap (a b : Item) : compareNumbers b a = (compareNumbers a b).swap := by
  have hexact (x y : Decimal) : y.compare x = (x.compare y).swap := Std.OrientedCmp.eq_swap
  have hdouble (d e : Float) : Double.compare e d = (Double.compare d e).swap := Std.OrientedCmp.eq_swap
  unfold compareNumbers
  cases a.exactValue? <;> cases b.exactValue? <;> first | exact hexact _ _ | exact hdouble _ _

/-- How two atomics compare, if they do. -/
inductive Compares : Item → Item → Ordering → Prop
  | nulls {a b} (ha : a.isNull = true) (hb : b.isNull = true) : Compares a b .eq
  | nullFirst {a b} (ha : a.isNull = true) (hb : b.isNull = false) : Compares a b .lt
  | nullLast {a b} (ha : a.isNull = false) (hb : b.isNull = true) : Compares a b .gt
  | numbers {a b} (ha : a.isNumeric = true) (hb : b.isNumeric = true) :
      Compares a b (compareNumbers a b)
  | alike {a b o} (h : compareAlike? a b = some o) : Compares a b o

theorem compare_eq_ok_iff {a b : Item} {o : Ordering} (ha : a.isAtomic = true) (hb : b.isAtomic = true) :
    compare a b = .ok o ↔ Compares a b o := by
  constructor
  · intro h
    unfold compare at h
    cases hna : a.isNull <;> cases hnb : b.isNull <;>
      simp only [hna, hnb, ha, hb, Bool.and_true, Bool.and_false, Bool.false_eq_true, ↓reduceIte] at h
    · split at h
      · rename_i hn
        obtain ⟨hn, hn'⟩ := Bool.and_eq_true_iff.mp hn
        cases h
        exact .numbers hn hn'
      · split at h
        · cases h
          exact .alike (by assumption)
        · cases h
    · cases h; exact .nullLast hna hnb
    · cases h; exact .nullFirst hna hnb
    · cases h; exact .nulls hna hnb
  · intro h
    unfold compare
    cases h with
    | nulls hna hnb => simp [hna, hnb]
    | nullFirst hna hnb => simp [hna, hnb, hb]
    | nullLast hna hnb => simp [hna, hnb, ha]
    | numbers hn hn' => simp [isNull_of_isNumeric hn, isNull_of_isNumeric hn', hn, hn']
    | alike h =>
      obtain ⟨⟨hna, hn⟩, hnb, -⟩ := kinds_of_compareAlike? h
      simp [hna, hnb, hn, h]

theorem Compares.swap {a b : Item} {o : Ordering} (h : Compares a b o) : Compares b a o.swap := by
  cases h with
  | nulls ha hb => exact .nulls hb ha
  | nullFirst ha hb => exact .nullLast hb ha
  | nullLast ha hb => exact .nullFirst hb ha
  | numbers ha hb => exact compareNumbers_swap a b ▸ .numbers hb ha
  | alike h => exact .alike (compareAlike?_swap h)

/-- Along a row the kind is the same, from the first item that is not null on. So there is an order along
it if there is one along numbers. -/
theorem Compares.trans {a b c : Item} {o o' : Ordering} (hab : Compares a b o) (hbc : Compares b c o')
    (ho : o.isLE = true) (ho' : o'.isLE = true)
    (hnumbers : a.isNumeric = true → b.isNumeric = true → c.isNumeric = true →
      (compareNumbers a b).isLE = true → (compareNumbers b c).isLE = true →
      (compareNumbers a c).isLE = true) : ∃ o'', Compares a c o'' ∧ o''.isLE = true := by
  cases hab with
  | nulls ha hb | nullFirst ha hb =>
    cases hc : c.isNull with
    | true => exact ⟨_, .nulls ha hc, rfl⟩
    | false => exact ⟨_, .nullFirst ha hc, rfl⟩
  | nullLast => cases ho
  | numbers ha hb =>
    cases hbc with
    | nulls hb' | nullFirst hb' =>
      rw [isNull_of_isNumeric hb] at hb'
      cases hb'
    | nullLast => cases ho'
    | numbers hb' hc => exact ⟨_, .numbers ha hc, hnumbers ha hb hc ho ho'⟩
    | alike h =>
      rw [(kinds_of_compareAlike? h).1.2] at hb
      cases hb
  | alike h =>
    have hb := (kinds_of_compareAlike? h).2
    cases hbc with
    | nulls hb' | nullFirst hb' => cases hb'.symm.trans hb.1
    | nullLast => cases ho'
    | numbers hb' => cases hb'.symm.trans hb.2
    | alike h' =>
      obtain ⟨o'', h, hle⟩ := compareAlike?_trans h h' ho ho'
      exact ⟨o'', .alike h, hle⟩

theorem IsExactAtomic.compareNumbers_trans {a b c : Item} (ha : a.IsExactAtomic) (hb : b.IsExactAtomic)
    (hc : c.IsExactAtomic) (hna : a.isNumeric = true) (hnb : b.isNumeric = true)
    (hnc : c.isNumeric = true) (hab : (compareNumbers a b).isLE = true)
    (hbc : (compareNumbers b c).isLE = true) : (compareNumbers a c).isLE = true := by
  obtain ⟨x, hx⟩ := ha.exactValue?_of_isNumeric hna
  obtain ⟨y, hy⟩ := hb.exactValue?_of_isNumeric hnb
  obtain ⟨z, hz⟩ := hc.exactValue?_of_isNumeric hnc
  simp only [compareNumbers, hx, hy, hz] at hab hbc ⊢
  exact Std.TransCmp.isLE_trans hab hbc

/-- **The comparison of atomics is coherent** if none is a double. -/
theorem coherent_compare : Coherent compare IsExactAtomic where
  swap ha hb h :=
    (compare_eq_ok_iff hb.isAtomic ha.isAtomic).mpr
      ((compare_eq_ok_iff ha.isAtomic hb.isAtomic).mp h).swap
  trans ha hb hc hab hbc := by
    obtain ⟨o, hab, ho⟩ := hab
    obtain ⟨o', hbc, ho'⟩ := hbc
    obtain ⟨o'', hac, hle⟩ :=
      ((compare_eq_ok_iff ha.isAtomic hb.isAtomic).mp hab).trans
        ((compare_eq_ok_iff hb.isAtomic hc.isAtomic).mp hbc) ho ho' (ha.compareNumbers_trans hb hc)
    exact ⟨o'', (compare_eq_ok_iff ha.isAtomic hc.isAtomic).mpr hac, hle⟩

/-- Two items that have no order: neither is null, they are not both numbers, and not of one kind, but
for bytes, which have no order at all. -/
structure Unordered (a b : Item) : Prop where
  left_ne_null : a.isNull = false
  right_ne_null : b.isNull = false
  not_numbers : (a.isNumeric && b.isNumeric) = false
  not_alike : a.typeName = b.typeName → a.typeName = "base64Binary"

theorem comparable_iff {a b : Item} (ha : a.isAtomic = true) (hb : b.isAtomic = true) :
    Comparable compare a b ↔ ∃ o, Compares a b o :=
  exists_congr fun _ => compare_eq_ok_iff ha hb

theorem exists_compareAlike? {a b : Item} (ha : a.isAtomic = true) (hna : a.isNull = false)
    (hn : (a.isNumeric && b.isNumeric) = false) (h : a.typeName = b.typeName)
    (hbytes : a.typeName ≠ "base64Binary") : ∃ o, compareAlike? a b = some o := by
  cases a <;> simp [isAtomic, isNull, typeName] at ha hna h hbytes
  all_goals
    cases b <;> simp at h
    first
    | exact ⟨_, rfl⟩
    | cases hn

/-- Which atomics do not compare. -/
theorem not_comparable_iff {a b : Item} (ha : a.IsExactAtomic) (hb : b.IsExactAtomic) :
    ¬ Comparable compare a b ↔ Unordered a b := by
  rw [comparable_iff ha.isAtomic hb.isAtomic]
  constructor
  · intro h
    have hna : a.isNull = false := by
      by_contra hna
      cases hnb : b.isNull
      · exact h ⟨_, .nullFirst (by simpa using hna) hnb⟩
      · exact h ⟨_, .nulls (by simpa using hna) hnb⟩
    have hnb : b.isNull = false := by
      by_contra hnb
      exact h ⟨_, .nullLast hna (by simpa using hnb)⟩
    have hn : (a.isNumeric && b.isNumeric) = false := by
      by_contra hn
      obtain ⟨hn, hn'⟩ := Bool.and_eq_true_iff.mp (Bool.not_eq_false _ ▸ hn)
      exact h ⟨_, .numbers hn hn'⟩
    refine ⟨hna, hnb, hn, fun heq => ?_⟩
    by_contra hbytes
    obtain ⟨o, ho⟩ := exists_compareAlike? ha.isAtomic hna hn heq hbytes
    exact h ⟨o, .alike ho⟩
  · rintro ⟨hna, hnb, hn, hbytes⟩ ⟨o, h⟩
    cases h with
    | nulls ha' | nullFirst ha' => cases hna.symm.trans ha'
    | nullLast _ hb' => cases hnb.symm.trans hb'
    | numbers ha' hb' => simp [ha', hb'] at hn
    | alike h =>
      unfold compareAlike? at h
      split at h <;> simp [typeName] at h hbytes

end Item
end HybridQuery
