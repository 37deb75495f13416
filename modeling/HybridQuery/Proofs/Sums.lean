import HybridQuery.Proofs.Division.Exact
import HybridQuery.Proofs.Ordering.Numbers

/-!
# Sums

A sum of decimals, among which there may be integers, is their exact total in any order. A sum of integers is
added up within 64 bits, so that it fails where a partial sum leaves them, though the total may lie within
them: then another order gives it. No order gives anything but the total.

* `Sequence.sum_integers`: a sum of integers fails just where a partial sum does not fit.
* `Sequence.exists_perm_partsFit`: integers whose total fits can be put in an order in which every partial sum
  fits.
* `Sequence.sum_exact`: what the sum of integers and decimals is, in any order.
* `Sequence.sum_depends_on_order`: three integers in two orders.
-/

namespace HybridQuery

/-! ## Totals -/

theorem Decimal.value_add (a b : Decimal) : (a.add b).value = a.value + b.value := by
  rw [value_eq_coefficientAt a (le_max_left _ b.scale), value_eq_coefficientAt b (le_max_right a.scale _), add,
    value]
  push_cast
  ring

/-- A number is within the range of 64 bits. -/
def InRange (x : ℚ) : Prop := -2 ^ 63 ≤ x ∧ x < 2 ^ 63

theorem inRange_intCast {n : Int} : InRange n ↔ Fits64 n := by
  rw [InRange, Fits64]
  norm_cast

namespace Sequence

/-- What the integers and decimals of a sequence add up to. -/
def total (items : Sequence) : ℚ := ((items.filterMap Item.decimal?).map Decimal.value).sum

/-- Every partial sum from a start on is within the range of 64 bits. -/
def PartsFit (start : ℚ) (items : Sequence) : Prop :=
  ∀ part : Sequence, part <+: items → InRange (start + part.total)

theorem total_cons {i : Item} {d : Decimal} (h : i.decimal? = some d) (rest : Sequence) :
    total (i :: rest) = d.value + total rest := by
  rw [total, List.filterMap_cons_some h, List.map_cons, List.sum_cons, total]

theorem total_cons_integer (n : Int64) (rest : Sequence) :
    total (.integer n :: rest) = n.toInt + total rest := by
  rw [total_cons rfl, Decimal.value_ofInt]

theorem total_perm {items other : Sequence} (h : items.Perm other) : items.total = other.total :=
  ((h.filterMap _).map _).sum_eq

theorem partsFit_nil {start : ℚ} : PartsFit start [] ↔ InRange start := by
  simp [PartsFit, total]

theorem partsFit_cons {start : ℚ} {n : Int64} {rest : Sequence} :
    PartsFit start (.integer n :: rest) ↔ InRange start ∧ PartsFit (start + n.toInt) rest := by
  simp only [PartsFit, List.prefix_cons_iff, forall_eq_or_imp]
  refine and_congr (by simp [total]) ⟨fun h part hpart => ?_, fun h => ?_⟩
  · have := h _ ⟨part, rfl, hpart⟩
    rwa [total_cons_integer, ← add_assoc] at this
  · rintro _ ⟨part, rfl, hpart⟩
    rw [total_cons_integer, ← add_assoc]
    exact h part hpart

theorem PartsFit.inRange {start : ℚ} {items : Sequence} (h : PartsFit start items) : InRange start := by
  simpa [total] using h [] List.nil_prefix

/-! ## Integers -/

theorem sumIntegers_cons_of_fits {start : Int} {n : Int64} (h : Fits64 (start + n.toInt)) (rest : Sequence) :
    sumIntegers start (.integer n :: rest) = sumIntegers (start + n.toInt) rest := by
  simp only [sumIntegers, Item.integer?, Option.map_some, Option.getD_some, fits64?_eq_some_iff.mpr ⟨h, rfl⟩]

theorem sumIntegers_cons_of_not_fits {start : Int} {n : Int64} (h : ¬ Fits64 (start + n.toInt))
    (rest : Sequence) : sumIntegers start (.integer n :: rest) = .fail .sumOverflow := by
  have hnone : fits64? (start + n.toInt) = none :=
    Option.eq_none_iff_forall_ne_some.mpr fun m hm => h (fits64?_eq_some_iff.mp hm).1
  simp only [sumIntegers, Item.integer?, Option.map_some, Option.getD_some, hnone]

/-- A sum of integers is their total if every partial sum fits, and fails if one does not. -/
theorem sum_integers {items : Sequence} {start : Int} (h : ∀ i ∈ items, i.isInteger = true)
    (hstart : Fits64 start) :
    (PartsFit start items →
      ∃ n : Int64, sumIntegers start items = .ok (.integer n) ∧ n.toInt = start + items.total) ∧
    (¬ PartsFit start items → sumIntegers start items = .fail .sumOverflow) := by
  induction items generalizing start with
  | nil =>
    rw [partsFit_nil, inRange_intCast, sumIntegers]
    refine ⟨fun hfits => ⟨_, Item.integerOf_of_fits hfits _, ?_⟩, fun hfits => absurd hstart hfits⟩
    rw [Item.toInt_ofInt hfits, total, List.filterMap_nil, List.map_nil, List.sum_nil, add_zero]
  | cons i rest ih =>
    obtain ⟨hi, hrest⟩ := List.forall_mem_cons.mp h
    cases i <;> cases hi
    case integer.refl n =>
      rw [partsFit_cons, inRange_intCast, ← Int.cast_add, and_iff_right hstart, total_cons_integer, ← add_assoc,
        ← Int.cast_add]
      by_cases hnext : Fits64 (start + n.toInt)
      · rw [sumIntegers_cons_of_fits hnext]
        exact ih hrest hnext
      · rw [sumIntegers_cons_of_not_fits hnext]
        exact ⟨fun hparts => absurd (inRange_intCast.mp hparts.inRange) hnext, fun _ => rfl⟩

/-! ## The order of integers -/

theorem mem_values {items : Sequence} (h : ∀ i ∈ items, i.isInteger = true) {x : ℚ}
    (hx : x ∈ (items.filterMap Item.decimal?).map Decimal.value) :
    ∃ n : Int64, .integer n ∈ items ∧ x = n.toInt := by
  obtain ⟨d, hd, rfl⟩ := List.mem_map.mp hx
  obtain ⟨i, hi, hid⟩ := List.mem_filterMap.mp hd
  have := h i hi
  cases i <;> cases this
  case integer.refl n =>
    cases hid
    exact ⟨n, hi, Decimal.value_ofInt _⟩

theorem total_nonneg {items : Sequence} (h : ∀ i ∈ items, i.isInteger = true)
    (hsign : ∀ n : Int64, .integer n ∈ items → 0 ≤ n.toInt) : 0 ≤ items.total := by
  refine List.sum_nonneg fun x hx => ?_
  obtain ⟨n, hn, rfl⟩ := mem_values h hx
  exact_mod_cast hsign n hn

theorem total_nonpos {items : Sequence} (h : ∀ i ∈ items, i.isInteger = true)
    (hsign : ∀ n : Int64, .integer n ∈ items → n.toInt ≤ 0) : items.total ≤ 0 := by
  refine (List.sum_le_card_nsmul _ 0 fun x hx => ?_).trans_eq (smul_zero _)
  obtain ⟨n, hn, rfl⟩ := mem_values h hx
  exact_mod_cast hsign n hn

/-- While the total fits, some integer can be added next: one that leads back to zero, or else any, since then
the partial sums only move towards the total. -/
theorem exists_next_fits {n : Int64} {rest : Sequence} {start : Int} (h : ∀ i ∈ rest, i.isInteger = true)
    (hstart : Fits64 start) (htotal : InRange (start + total (.integer n :: rest))) :
    ∃ m : Int64, .integer m ∈ (.integer n :: rest : Sequence) ∧ Fits64 (start + m.toInt) := by
  rw [total_cons_integer, ← add_assoc, ← Int.cast_add] at htotal
  by_cases hback : ∃ m : Int64, .integer m ∈ (.integer n :: rest : Sequence) ∧
      (0 ≤ start ∧ m.toInt ≤ 0 ∨ start ≤ 0 ∧ 0 ≤ m.toInt)
  · obtain ⟨m, hm, hsign⟩ := hback
    have hfits := Item.fits64_toInt m
    refine ⟨m, hm, ?_⟩
    rw [Fits64] at *
    omega
  · push Not at hback
    have hn := hback n List.mem_cons_self
    refine ⟨n, List.mem_cons_self, inRange_intCast.mp ?_⟩
    rcases le_or_gt 0 start with hpos | hneg
    · have hrest : 0 ≤ total rest := total_nonneg h fun m hm =>
        ((hback m (List.mem_cons_of_mem _ hm)).1 hpos).le
      have hsum : (0 : ℚ) ≤ (start + n.toInt : Int) := by
        have := hn.1 hpos
        exact_mod_cast (by omega : (0 : Int) ≤ start + n.toInt)
      exact ⟨by linarith, by linarith [htotal.2]⟩
    · have hrest : total rest ≤ 0 := total_nonpos h fun m hm =>
        ((hback m (List.mem_cons_of_mem _ hm)).2 hneg.le).le
      have hsum : ((start + n.toInt : Int) : ℚ) ≤ 0 := by
        have := hn.2 hneg.le
        exact_mod_cast (by omega : start + n.toInt ≤ (0 : Int))
      exact ⟨by linarith [htotal.1], by linarith⟩

/-- Integers whose total fits can be put in an order in which every partial sum fits. -/
theorem exists_perm_partsFit {items : Sequence} {start : Int} (h : ∀ i ∈ items, i.isInteger = true)
    (hstart : Fits64 start) (htotal : InRange (start + items.total)) :
    ∃ other : Sequence, items.Perm other ∧ PartsFit start other := by
  induction hlength : items.length generalizing items start with
  | zero =>
    rw [List.length_eq_zero_iff.mp hlength]
    exact ⟨[], .nil, partsFit_nil.mpr (inRange_intCast.mpr hstart)⟩
  | succ length ih =>
    obtain _ | ⟨i, rest⟩ := items
    · cases hlength
    obtain ⟨hi, hrest⟩ := List.forall_mem_cons.mp h
    cases i <;> cases hi
    case integer.refl n =>
      obtain ⟨m, hm, hfits⟩ := exists_next_fits hrest hstart htotal
      obtain ⟨before, after, hsplit⟩ := List.mem_iff_append.mp hm
      rw [hsplit] at h htotal hlength ⊢
      rw [total_perm List.perm_middle, total_cons_integer, ← add_assoc, ← Int.cast_add] at htotal
      have hother (i) (hi : i ∈ before ++ after) : i.isInteger = true :=
        h i (List.perm_middle.mem_iff.mpr (List.mem_cons_of_mem _ hi))
      obtain ⟨other, hperm, hparts⟩ := ih hother hfits htotal (by simp at hlength ⊢; omega)
      refine ⟨.integer m :: other, List.perm_middle.trans (hperm.cons _), ?_⟩
      rw [partsFit_cons]
      exact ⟨inRange_intCast.mpr hstart, by exact_mod_cast hparts⟩

/-! ## Sums in any order -/

theorem value_foldl_add (start : Decimal) (ds : List Decimal) :
    (ds.foldl Decimal.add start).value = start.value + (ds.map Decimal.value).sum := by
  induction ds generalizing start with
  | nil => simp
  | cons d ds ih => rw [List.foldl_cons, ih, Decimal.value_add, List.map_cons, List.sum_cons, add_assoc]

theorem kind_of_decimal? {i : Item} (h : i.decimal?.isSome = true) : i.isNumeric = true ∧ i.isDouble = false := by
  cases i <;> first | exact ⟨rfl, rfl⟩ | cases h

/-- Integers are added up within 64 bits; where there is a decimal, everything is added up exactly. -/
theorem sum_cases {items : Sequence} (h : ∀ i ∈ items, i.decimal?.isSome = true) :
    (items.all Item.isInteger = true ∧ items.sum = sumIntegers 0 items) ∨
      (items.all Item.isInteger = false ∧ ∃ d, items.sum = .ok (.decimal d) ∧ d.value = items.total) := by
  have hnumeric : items.find? (!·.isNumeric) = none :=
    List.find?_eq_none.mpr fun i hi => by simp [(kind_of_decimal? (h i hi)).1]
  have hdouble : items.any Item.isDouble = false :=
    List.any_eq_false.mpr fun i hi => by simp [(kind_of_decimal? (h i hi)).2]
  rw [sum, hnumeric, hdouble]
  cases hall : items.all Item.isInteger with
  | true => exact .inl ⟨rfl, rfl⟩
  | false =>
    refine .inr ⟨rfl, _, rfl, ?_⟩
    rw [value_foldl_add, Decimal.zero, Decimal.value_ofInt, Int.cast_zero, zero_add, total]

theorem sum_of_integers {items : Sequence} (h : ∀ i ∈ items, i.decimal?.isSome = true)
    (hall : items.all Item.isInteger = true) :
    (PartsFit 0 items → ∃ n : Int64, items.sum = .ok (.integer n) ∧ n.toInt = items.total) ∧
      (¬ PartsFit 0 items → items.sum = .fail .sumOverflow) := by
  obtain ⟨-, hsum⟩ | ⟨hsome, -⟩ := sum_cases h
  · have hzero : Fits64 0 := ⟨by decide, by decide⟩
    have := sum_integers (List.all_eq_true.mp hall) hzero
    simpa [hsum] using this
  · rw [hall] at hsome
    cases hsome

/-- What a sum gives is the total. -/
theorem total_of_sum {items : Sequence} (h : ∀ i ∈ items, i.decimal?.isSome = true) {r : Item}
    (hr : items.sum = .ok r) : r.quantity? = some (.inl items.total) := by
  obtain ⟨hall, -⟩ | ⟨-, d, hd, hvalue⟩ := sum_cases h
  · obtain ⟨hfits, hfails⟩ := sum_of_integers h hall
    by_cases hparts : PartsFit 0 items
    · obtain ⟨n, hn, hvalue⟩ := hfits hparts
      rw [hn] at hr
      cases hr
      rw [Item.quantity?, hvalue]
    · rw [hfails hparts] at hr
      cases hr
  · rw [hd] at hr
    cases hr
    rw [Item.quantity?, hvalue]

/-- **Sums are exact, whatever the order.** Of integers and decimals that are not all integers the sum is the
exact total. Of integers it is so if every partial sum fits in 64 bits, and it fails otherwise; the total fits
just if some order of the integers has a sum. Two orders that have sums have equal ones. -/
theorem sum_exact {items : Sequence} (h : ∀ i ∈ items, i.decimal?.isSome = true) :
    (items.all Item.isInteger = true → PartsFit 0 items →
      ∃ n : Int64, items.sum = .ok (.integer n) ∧ n.toInt = items.total) ∧
    (items.all Item.isInteger = true → ¬ PartsFit 0 items → items.sum = .fail .sumOverflow) ∧
    (items.all Item.isInteger = false → ∃ d, items.sum = .ok (.decimal d) ∧ d.value = items.total) ∧
    (items.all Item.isInteger = true →
      (InRange items.total ↔ ∃ other r, items.Perm other ∧ sum other = .ok r)) ∧
    (∀ other r s, items.Perm other → items.sum = .ok r → sum other = .ok s → r.same s = true) := by
  have hother {other : Sequence} (hperm : items.Perm other) (i) (hi : i ∈ other) : i.decimal?.isSome = true :=
    h i (hperm.mem_iff.mpr hi)
  refine ⟨fun hall => (sum_of_integers h hall).1, fun hall => (sum_of_integers h hall).2, fun hall => ?_,
    fun hall => ⟨fun hfits => ?_, ?_⟩, fun other r s hperm hr hs => ?_⟩
  · obtain ⟨hinteger, -⟩ | ⟨-, hd⟩ := sum_cases h
    · rw [hall] at hinteger
      cases hinteger
    · exact hd
  · obtain ⟨other, hperm, hparts⟩ := exists_perm_partsFit (List.all_eq_true.mp hall)
      (show Fits64 0 from ⟨by decide, by decide⟩) (by simpa using hfits)
    obtain ⟨n, hn, -⟩ := (sum_of_integers (hother hperm) (hperm.all_eq.symm.trans hall)).1 (by simpa using hparts)
    exact ⟨other, _, hperm, hn⟩
  · rintro ⟨other, r, hperm, hr⟩
    obtain ⟨hfits, hfails⟩ := sum_of_integers (hother hperm) (hperm.all_eq.symm.trans hall)
    by_cases hparts : PartsFit 0 other
    · rw [total_perm hperm]
      simpa using hparts other List.prefix_rfl
    · rw [hfails hparts] at hr
      cases hr
  · have hq := total_of_sum h hr
    have hq' := total_of_sum (hother hperm) hs
    rw [← total_perm hperm] at hq'
    rw [Item.same_iff, Item.worth_of_quantity? hq, Item.worth_of_quantity? hq']

/-- With a decimal among them, the greatest integer and one have a sum. -/
theorem sum_exact_past_range :
    ∃ d, sum [.decimal ⟨5, 1⟩, .integer Int64.maxValue, .integer 1] = .ok (.decimal d) ∧
      d.value = 2 ^ 63 + 1 / 2 := by
  obtain ⟨d, hd, hvalue⟩ :=
    (@sum_exact [.decimal ⟨5, 1⟩, .integer Int64.maxValue, .integer 1] (by decide)).2.2.1 rfl
  refine ⟨d, hd, hvalue.trans ?_⟩
  have hgreatest : Int64.maxValue.toInt = 2 ^ 63 - 1 := by decide
  have hone : (1 : Int64).toInt = 1 := by decide
  rw [total_cons rfl, total_cons_integer, total_cons_integer, Decimal.value, hgreatest, hone]
  norm_num [total]

/-- The greatest integer, one and minus one have no sum in this order, and the greatest integer is their sum in
another. -/
theorem sum_depends_on_order :
    let one : Sequence := [.integer 1]
    let minusOne : Sequence := [.integer (-1)]
    let greatest : Sequence := [.integer Int64.maxValue]
    (greatest ++ one ++ minusOne).Perm (greatest ++ minusOne ++ one) ∧
      sum (greatest ++ one ++ minusOne) = .fail .sumOverflow ∧
      sum (greatest ++ minusOne ++ one) = .ok (.integer Int64.maxValue) :=
  ⟨.cons _ (.swap _ _ _), rfl, rfl⟩

end Sequence
end HybridQuery
