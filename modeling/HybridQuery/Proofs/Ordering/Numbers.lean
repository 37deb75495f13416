import HybridQuery.Proofs.Equality

/-!
# Numbers in order

Numbers of any kind are ordered by the quantities they stand for: NaN first, then the negative infinity, the
finite numbers by size, the positive infinity. The comparison follows this order and is equal just where
equality is, but for a decimal past the range of the doubles: next to an infinite double it is rounded, and
to that infinity if it has its sign. There the comparison finds two numbers equal that are not, and is no
order: both `1e401` and `1e400` are level with infinity.

* `Double.denote_ofDecimal_eq_infinite_iff`: the decimals that round to an infinity.
* `Item.compareNumbers_eq`: numbers compare as their quantities, unless one rounds onto the other.
* `Item.compare_agrees_with_same`: the comparison of atomics turns around, is transitive and agrees with
  equality, but for numbers of which one rounds onto the other.
-/

namespace HybridQuery

/-! ## Quantities -/

namespace Quantity

/-- Place of a quantity among NaN, the negative infinity, the finite numbers and the positive infinity. -/
def rank : ℚ ⊕ Nat → Nat
  | .inl _ => 2
  | .inr rank => rank

/-- The finite number that a quantity is; zero for the others. -/
def number : ℚ ⊕ Nat → ℚ
  | .inl x => x
  | .inr _ => 0

/-- Order of quantities. -/
def compare (q r : ℚ ⊕ Nat) : Ordering :=
  (Ord.compare (rank q) (rank r)).then (Ord.compare (number q) (number r))

instance : Std.TransCmp compare :=
  inferInstanceAs (Std.TransCmp (compareLex (compareOn rank) (compareOn number)))

theorem compare_inl (x y : ℚ) : compare (.inl x) (.inl y) = Ord.compare x y := by
  simp [compare, rank, number]

theorem compare_eq_eq_iff {q r : ℚ ⊕ Nat} (hq : q ≠ .inr 2) (hr : r ≠ .inr 2) :
    compare q r = .eq ↔ q = r := by
  rw [compare, Ordering.then_eq_eq, compare_eq_iff_eq, compare_eq_iff_eq]
  cases q <;> cases r <;> simp_all [rank, number, eq_comm]

end Quantity

namespace Double

theorem quantity_of_finite {d : Float} {negative : Bool} {mantissa : Nat} {exponent : Int}
    (h : denote d = .finite negative mantissa exponent) :
    quantity d = .inl (exactDecimal negative mantissa exponent).value := by rw [quantity, h]

/-- Doubles compare as their quantities. -/
theorem compare_eq (a b : Float) : compare a b = Quantity.compare (quantity a) (quantity b) := by
  rw [compare, quantity, quantity]
  generalize denote a = x, denote b = y
  rcases x with _ | ⟨_ | _⟩ | _ <;> rcases y with _ | ⟨_ | _⟩ | _ <;>
    first
    | exact (Decimal.compare_eq _ _).trans (Quantity.compare_inl _ _).symm
    | rfl

/-! ## Overflow -/

/-- The size from which on a number rounds to an infinity: half a step of the greatest doubles below
`2 ^ 1024`. -/
def overflow : ℚ := (Power.two 1024 : ℚ) - Power.two 970

theorem two_pow_le_overflow {k : Nat} (h : k ≤ 970) : 2 ^ k ≤ overflow := by
  have hsplit : (Power.two 1024 : ℚ) = Power.two 970 * Power.two 54 := by
    rw [show 1024 = 970 + 54 from rfl]
    simp only [Power.two_eq, pow_add, Nat.cast_mul]
  have hpower : (2 : ℚ) ^ k ≤ Power.two 970 := by
    rw [Power.two_eq, Nat.cast_pow]
    exact pow_le_pow_right₀ one_le_two h
  have htwo : (2 : ℚ) ≤ Power.two 54 := by
    rw [Power.two_eq]
    norm_num
  have hpos : (0 : ℚ) ≤ Power.two 970 := Nat.cast_nonneg _
  rw [overflow, hsplit]
  nlinarith

theorem overflow_le : overflow ≤ 10 ^ decimalRange :=
  calc overflow ≤ Power.two 1024 := sub_le_self _ (Nat.cast_nonneg _)
    _ ≤ 10 ^ (400 : Nat) := by
      rw [Power.two_eq]
      exact_mod_cast two_pow_le_ten_pow (show 1024 ≤ 3 * 400 by omega)
    _ = 10 ^ decimalRange := (zpow_natCast 10 400).symm

/-- A decimal rounds to a size of its sign, to that of infinity from the overflow on. -/
theorem exists_size_ofDecimal (x : Decimal) : ∃ bits ≤ infiniteBits,
    ofDecimal x = ofSize (x.coefficient < 0) bits ∧ (bits = infiniteBits ↔ overflow ≤ |x.value|) := by
  rw [ofDecimal]
  refine ⟨_, ?_, rfl, ?_⟩
  · split
    · exact Nat.zero_le _
    · split
      · exact le_rfl
      · exact min_le_right _ _
  have hpos : infiniteBits ≠ 0 := by decide
  split
  · rename_i hsmall
    refine iff_of_false hpos.symm (not_le.mpr (lt_of_lt_of_le ?_ (two_pow_le_overflow (Nat.zero_le _))))
    rcases hsmall with hzero | hmagnitude
    · rw [Decimal.value_zero hzero, abs_zero]
      exact zero_lt_one
    · rw [decimalRange] at hmagnitude
      calc |x.value| < 10 ^ x.magnitude := x.abs_value_lt
        _ ≤ 10 ^ (0 : Int) := zpow_le_zpow_right₀ (by norm_num) (by omega)
        _ = 2 ^ 0 := by rw [zpow_zero, pow_zero]
  rename_i hsmall
  rw [not_or] at hsmall
  split
  · rename_i hlarge
    refine iff_of_true rfl (overflow_le.trans ?_)
    exact (zpow_le_zpow_right₀ (by norm_num) (by omega)).trans (Decimal.le_abs_value hsmall.1)
  · have hden : (0 : ℚ) < Power.ten x.scale.toNat := by
      rw [Power.ten_eq]
      positivity
    rw [nearestBits_eq_infiniteBits_iff (by exact_mod_cast hden), overflow, ← mul_le_mul_iff_left₀ hden,
      Decimal.abs_value_mul, sub_mul, sub_le_iff_le_add]
    norm_cast

/-- The decimals that round to an infinity: those of its sign from the overflow on. -/
theorem denote_ofDecimal_eq_infinite_iff {x : Decimal} {negative : Bool} :
    denote (ofDecimal x) = .infinite negative ↔
      decide (x.coefficient < 0) = negative ∧ overflow ≤ |x.value| := by
  obtain ⟨bits, hbits, hsize, hinfinite⟩ := exists_size_ofDecimal x
  rw [hsize, denote_ofSize _ hbits, ← hinfinite]
  split
  · rename_i h
    simp [h]
  · rename_i h
    split <;> simp [h]

theorem denote_ofDecimal_ne_nan (x : Decimal) : denote (ofDecimal x) ≠ .nan := by
  obtain ⟨bits, hbits, hsize, -⟩ := exists_size_ofDecimal x
  rw [hsize, denote_ofSize _ hbits]
  split
  · simp
  · split <;> simp

/-- Integers do not overflow. -/
theorem denote_ofInt64_ne_infinite (n : Int64) (negative : Bool) : denote (ofInt64 n) ≠ .infinite negative := by
  rw [ofInt64, ne_eq, denote_ofDecimal_eq_infinite_iff, not_and, not_le, Decimal.value_ofInt]
  intro _
  have hlow := n.le_toInt
  have hhigh := n.toInt_lt
  have hsize : |n.toInt| < 2 ^ 64 := by
    rw [abs_lt]
    constructor <;> omega
  have hoverflow := two_pow_le_overflow (k := 64) (by omega)
  calc |(n.toInt : ℚ)| < 2 ^ 64 := by exact_mod_cast hsize
    _ ≤ overflow := hoverflow

/-- A double that is no number compares with a decimal that it is rounded to as with the decimal itself,
unless that is the double. -/
theorem compare_ofDecimal {d : Float} {x : Decimal} (hd : toDecimal? d = none)
    (h : ∀ negative, denote d = .infinite negative → denote (ofDecimal x) ≠ .infinite negative) :
    compare d (ofDecimal x) = Quantity.compare (quantity d) (.inl x.value) := by
  have hnan := denote_ofDecimal_ne_nan x
  rw [toDecimal?] at hd
  rw [compare, quantity]
  generalize denote (ofDecimal x) = y at h hnan
  generalize denote d = z at h hd
  rcases z with _ | ⟨_ | _⟩ | _ <;> rcases y with _ | ⟨_ | _⟩ | _ <;>
    first
    | rfl
    | exact absurd rfl hnan
    | exact absurd rfl (h _ rfl)
    | cases hd

end Double

/-! ## Numbers -/

namespace Item

theorem exists_quantity_of_isNumeric {a : Item} (h : a.isNumeric = true) : ∃ q, a.quantity? = some q := by
  cases a <;> first | exact ⟨_, rfl⟩ | cases h

theorem quantity?_of_exact {a : Item} {x : Decimal} (h : a.exactValue? = some x) :
    a.quantity? = some (.inl x.value) := by
  cases a <;> try cases h
  case integer n => rw [quantity?, Decimal.value_ofInt]
  case decimal => rfl
  case double d =>
    rw [exactValue?, Double.toDecimal?] at h
    split at h
    · rename_i hd
      cases h
      rw [quantity?, Double.quantity_of_finite hd]
    · cases h

/-- A quantity that is no finite number has a place of its own. -/
theorem quantity?_ne {a : Item} {q : ℚ ⊕ Nat} (h : a.quantity? = some q) : q ≠ .inr 2 := by
  cases a <;> cases h
  case integer | decimal => simp
  case double d =>
    rw [Double.quantity]
    rcases Double.denote d with _ | ⟨_ | _⟩ | _ <;> simp [Double.Denotation.rank]

/-- A decimal next to the infinite double that it rounds to. -/
def RoundsOnto (a b : Item) : Prop :=
  ∃ x d negative, a = .decimal x ∧ b = .double d ∧ Double.denote d = .infinite negative ∧
    Double.denote (Double.ofDecimal x) = .infinite negative

/-- A decimal rounds onto the infinity of its sign, from the overflow on. -/
theorem roundsOnto_iff {x : Decimal} {d : Float} :
    RoundsOnto (.decimal x) (.double d) ↔
      Double.denote d = .infinite (x.coefficient < 0) ∧ Double.overflow ≤ |x.value| := by
  constructor
  · rintro ⟨x', d', negative, hx, hd, hinfinite, hround⟩
    cases hx
    cases hd
    obtain ⟨rfl, hsize⟩ := Double.denote_ofDecimal_eq_infinite_iff.mp hround
    exact ⟨hinfinite, hsize⟩
  · rintro ⟨hinfinite, hsize⟩
    exact ⟨x, d, _, rfl, rfl, hinfinite, Double.denote_ofDecimal_eq_infinite_iff.mpr ⟨rfl, hsize⟩⟩

/-- Two numbers of which one rounds onto the other. -/
def Overflowing (a b : Item) : Prop := RoundsOnto a b ∨ RoundsOnto b a

theorem RoundsOnto.compareNumbers_eq {a b : Item} (h : RoundsOnto a b) : compareNumbers a b = .eq := by
  obtain ⟨x, d, negative, rfl, rfl, hd, hx⟩ := h
  have hnone : Double.toDecimal? d = none := by rw [Double.toDecimal?, hd]
  have hdouble : Double.compare (Double.ofDecimal x) d = .eq := by
    rw [Double.compare, hd, hx]
    cases negative <;> rfl
  simp only [compareNumbers, exactValue?, hnone]
  exact hdouble

/-- A double that is no number compares as its quantity: what stands next to it is rounded to a double, and
is finite after that as it was before. -/
theorem compareNumbers_of_special {d : Float} (hd : Double.toDecimal? d = none) {b : Item} {r : ℚ ⊕ Nat}
    (hb : b.quantity? = some r) (h : ¬RoundsOnto b (.double d)) :
    compareNumbers (.double d) b = Quantity.compare (Double.quantity d) r := by
  have hdoubles : compareNumbers (.double d) b = Double.compare d (b.double?.getD 0.0) := by
    simp only [compareNumbers, exactValue?, hd]
    rfl
  rw [hdoubles]
  cases b <;> cases hb
  case integer n =>
    rw [← Decimal.value_ofInt]
    exact Double.compare_ofDecimal hd fun negative _ => Double.denote_ofInt64_ne_infinite n negative
  case decimal x =>
    exact Double.compare_ofDecimal hd fun negative hd hx => h ⟨x, d, negative, rfl, rfl, hd, hx⟩
  case double e => exact Double.compare_eq d e

theorem eq_double_of_special {a : Item} {q : ℚ ⊕ Nat} (ha : a.quantity? = some q)
    (h : a.exactValue? = none) : ∃ d, a = .double d ∧ Double.toDecimal? d = none := by
  cases a <;> first | exact ⟨_, rfl, h⟩ | cases ha <;> cases h

/-- **Numbers compare as their quantities**, unless one rounds onto the other. -/
theorem compareNumbers_eq {a b : Item} {q r : ℚ ⊕ Nat} (ha : a.quantity? = some q)
    (hb : b.quantity? = some r) (h : ¬Overflowing a b) : compareNumbers a b = Quantity.compare q r := by
  obtain ⟨hab, hba⟩ := not_or.mp h
  -- Two exact values are compared as they are; next to a double that has none, both sides are doubles.
  cases hx : a.exactValue? with
  | none =>
    obtain ⟨d, rfl, hd⟩ := eq_double_of_special ha hx
    cases ha
    exact compareNumbers_of_special hd hb hba
  | some x =>
    cases hy : b.exactValue? with
    | none =>
      obtain ⟨e, rfl, he⟩ := eq_double_of_special hb hy
      cases hb
      rw [compareNumbers_swap, compareNumbers_of_special he ha hab]
      exact Std.OrientedCmp.eq_swap.symm
    | some y =>
      cases (quantity?_of_exact hx).symm.trans ha
      cases (quantity?_of_exact hy).symm.trans hb
      rw [Quantity.compare_inl, ← Decimal.compare_eq, compareNumbers, hx, hy]

theorem worth_of_quantity? {a : Item} {q : ℚ ⊕ Nat} (h : a.quantity? = some q) : a.worth = .number q := by
  cases a <;> cases h <;> rfl

/-- Numbers compare equal if they are equal, or one rounds onto the other. -/
theorem compareNumbers_eq_eq_iff {a b : Item} (ha : a.isNumeric = true) (hb : b.isNumeric = true) :
    compareNumbers a b = .eq ↔ same a b = true ∨ Overflowing a b := by
  obtain ⟨q, hq⟩ := exists_quantity_of_isNumeric ha
  obtain ⟨r, hr⟩ := exists_quantity_of_isNumeric hb
  by_cases h : Overflowing a b
  · refine iff_of_true ?_ (.inr h)
    rcases h with h | h
    · exact h.compareNumbers_eq
    · rw [compareNumbers_swap, h.compareNumbers_eq]
      rfl
  · rw [compareNumbers_eq hq hr h, Quantity.compare_eq_eq_iff (quantity?_ne hq) (quantity?_ne hr), same_iff,
      worth_of_quantity? hq, worth_of_quantity? hr, Worth.number.injEq, or_iff_left h]

/-- Along a row of numbers there is an order, if none rounds onto its neighbour. -/
theorem compareNumbers_trans {a b c : Item} (hab : ¬Overflowing a b) (hbc : ¬Overflowing b c)
    (ha : a.isNumeric = true) (hb : b.isNumeric = true) (hc : c.isNumeric = true)
    (hle : (compareNumbers a b).isLE = true) (hle' : (compareNumbers b c).isLE = true) :
    (compareNumbers a c).isLE = true := by
  obtain ⟨q, hq⟩ := exists_quantity_of_isNumeric ha
  obtain ⟨r, hr⟩ := exists_quantity_of_isNumeric hb
  obtain ⟨s, hs⟩ := exists_quantity_of_isNumeric hc
  by_cases hac : Overflowing a c
  · rw [(compareNumbers_eq_eq_iff ha hc).mpr (.inr hac)]
    rfl
  · rw [compareNumbers_eq hq hr hab] at hle
    rw [compareNumbers_eq hr hs hbc] at hle'
    rw [compareNumbers_eq hq hs hac]
    exact Std.TransCmp.isLE_trans hle hle'

end Item

/-! ## Atomics -/

theorem Date.compare_eq_eq_iff {a b : Date} : a.compare b = .eq ↔ a = b := by
  rw [compare, Ordering.then_eq_eq, Ordering.then_eq_eq, compare_eq_iff_eq, compare_eq_iff_eq,
    compare_eq_iff_eq]
  cases a
  cases b
  simp

theorem Duration.compare_eq_eq_iff {a b : Duration} : a.compare b = .eq ↔ a = b := by
  rw [compare, compare_eq_iff_eq]
  cases a
  cases b
  simp

namespace Item

instance : Std.LawfulEqCmp compareStrings := inferInstanceAs (Std.LawfulEqOrd String)

/-- Two items of one kind compare equal if they are equal. -/
theorem compareAlike?_eq_iff {a b : Item} {o : Ordering} (h : compareAlike? a b = some o) :
    o = .eq ↔ same a b = true := by
  unfold compareAlike? at h
  split at h <;> cases h
  case h_1 => exact Std.LawfulEqCmp.compare_eq_iff_eq.trans beq_iff_eq.symm
  case h_2 => exact compare_eq_iff_eq.trans beq_iff_eq.symm
  case h_3 => exact Date.compare_eq_eq_iff.trans beq_iff_eq.symm
  case h_4 => exact beq_iff_eq.symm
  case h_5 => exact beq_iff_eq.symm
  case h_6 => exact Duration.compare_eq_eq_iff.trans beq_iff_eq.symm

/-- An atomic that is comparable with its kind: any but bytes. -/
structure IsOrdered (i : Item) : Prop where
  isAtomic : i.isAtomic = true
  not_bytes : i.typeName ≠ "base64Binary"

theorem isNumeric_of_same {a b : Item} (h : same a b = true) : a.isNumeric = b.isNumeric := by
  cases a <;> cases b <;> first | rfl | cases h

theorem isNull_of_same {a b : Item} (h : same a b = true) : a.isNull = b.isNull := by
  cases a <;> cases b <;> first | rfl | cases h

theorem typeName_of_same {a b : Item} (h : same a b = true) (hn : a.isNumeric = false) :
    a.typeName = b.typeName := by
  cases a <;> cases b <;> first | rfl | cases hn <;> cases h

theorem Overflowing.isNumeric {a b : Item} (h : Overflowing a b) :
    a.isNumeric = true ∧ b.isNumeric = true := by
  rcases h with ⟨x, d, _, rfl, rfl, -⟩ | ⟨x, d, _, rfl, rfl, -⟩ <;> exact ⟨rfl, rfl⟩

/-- Atomics compare equal if they are equal, or one rounds onto the other. -/
theorem compare_eq_eq_iff {a b : Item} (ha : a.IsOrdered) (hb : b.IsOrdered) :
    compare a b = .ok .eq ↔ same a b = true ∨ Overflowing a b := by
  rw [compare_eq_ok_iff ha.isAtomic hb.isAtomic]
  constructor
  · intro h
    generalize ho : Ordering.eq = o at h
    cases h with
    | nulls hna hnb =>
      cases a <;> cases hna
      cases b <;> cases hnb
      exact .inl rfl
    | nullFirst | nullLast => cases ho
    | numbers hna hnb => exact (compareNumbers_eq_eq_iff hna hnb).mp ho.symm
    | alike h => exact .inl ((compareAlike?_eq_iff h).mp ho.symm)
  · intro h
    have hnumbers (hna : a.isNumeric = true) (hnb : b.isNumeric = true) : Compares a b .eq :=
      (compareNumbers_eq_eq_iff hna hnb).mpr h ▸ .numbers hna hnb
    rcases h with h | h
    · cases hnull : a.isNull with
      | true => exact .nulls hnull (isNull_of_same h ▸ hnull)
      | false =>
        cases hnumeric : a.isNumeric with
        | true => exact hnumbers hnumeric (isNumeric_of_same h ▸ hnumeric)
        | false =>
          obtain ⟨o, ho⟩ := exists_compareAlike? ha.isAtomic hnull (by rw [hnumeric, Bool.false_and])
            (typeName_of_same h hnumeric) ha.not_bytes
          exact (compareAlike?_eq_iff ho).mpr h ▸ .alike ho
    · exact hnumbers h.isNumeric.1 h.isNumeric.2

/-- **The comparison of atomics is a total preorder and agrees with equality**, but where a decimal rounds
to the infinite double that it stands next to. -/
theorem compare_agrees_with_same {a b c : Item} (ha : a.IsOrdered) (hb : b.IsOrdered) (hc : c.IsOrdered) :
    (∀ o, compare a b = .ok o → compare b a = .ok o.swap) ∧
    (¬Overflowing a b → ¬Overflowing b c → NotAfter compare a b → NotAfter compare b c →
      NotAfter compare a c) ∧
    (compare a b = .ok .eq ↔ same a b = true ∨ Overflowing a b) := by
  refine ⟨fun o h => ?_, fun hab hbc => ?_, compare_eq_eq_iff ha hb⟩
  · rw [compare_eq_ok_iff ha.isAtomic hb.isAtomic] at h
    exact (compare_eq_ok_iff hb.isAtomic ha.isAtomic).mpr h.swap
  · rintro ⟨o, hle, ho⟩ ⟨o', hle', ho'⟩
    rw [compare_eq_ok_iff ha.isAtomic hb.isAtomic] at hle
    rw [compare_eq_ok_iff hb.isAtomic hc.isAtomic] at hle'
    obtain ⟨o'', h, ho''⟩ := hle.trans hle' ho ho' (compareNumbers_trans hab hbc)
    exact ⟨o'', (compare_eq_ok_iff ha.isAtomic hc.isAtomic).mpr h, ho''⟩

/-- Integers past the mantissa of a double are told apart from it, and are transitive with it. -/
theorem compare_agrees_with_same_past_mantissa :
    compare (.integer 9007199254740993) (.double (Float.ofBits 0x4340000000000000)) = .ok .gt ∧
    NotAfter compare (.double (Float.ofBits 0x4340000000000000)) (.decimal ⟨90071992547409930, 1⟩) ∧
    ¬same (.double (Float.ofBits 0x4340000000000000)) (.integer 9007199254740993) = true := by
  have hnot (d : Float) (n : Int64) : ¬Overflowing (.double d) (.integer n) := by
    rintro (⟨x, d, _, h, -⟩ | ⟨x, d, _, h, -⟩) <;> cases h
  have hnot' (n : Int64) (x : Decimal) : ¬Overflowing (.integer n) (.decimal x) := by
    rintro (⟨x, d, _, h, -⟩ | ⟨x, d, _, -, h, -⟩) <;> cases h
  obtain ⟨hswap, htrans, heq⟩ :=
    compare_agrees_with_same (a := .double (Float.ofBits 0x4340000000000000))
      (b := .integer 9007199254740993) (c := .decimal ⟨90071992547409930, 1⟩)
      ⟨rfl, by decide⟩ ⟨rfl, by decide⟩ ⟨rfl, by decide⟩
  exact ⟨hswap .lt rfl, htrans (hnot _ _) (hnot' _ _) ⟨.lt, rfl, rfl⟩ ⟨.eq, rfl, rfl⟩,
    fun h => nomatch heq.mpr (.inl h)⟩

/-- Two decimals past the range of the doubles are level with infinity, but neither equal to it nor to each
other. -/
theorem infinity_levels_decimals :
    compare (.decimal ⟨1, -401⟩) (.double (Float.ofBits 0x7FF0000000000000)) = .ok .eq ∧
    compare (.double (Float.ofBits 0x7FF0000000000000)) (.decimal ⟨1, -400⟩) = .ok .eq ∧
    compare (.decimal ⟨1, -401⟩) (.decimal ⟨1, -400⟩) = .ok .gt ∧
    same (.decimal ⟨1, -401⟩) (.double (Float.ofBits 0x7FF0000000000000)) = false := by
  refine ⟨rfl, rfl, rfl, ?_⟩
  simp only [same]
  decide +kernel

end Item
end HybridQuery
