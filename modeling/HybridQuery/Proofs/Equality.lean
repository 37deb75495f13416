import HybridQuery.Proofs.Ordering.Atomics

/-!
# Equality of items

Items are equal if they are worth the same: numbers are worth the number they stand for, whatever their
kind, points in time what they are in UTC, functions their handles, and everything else is worth itself.
So equality is an equivalence, of items and of grouping keys.

* `Item.worth`, `Item.same_iff`: what an item is worth, and that equality compares just that.
* `GroupingKey.same_iff`, `GroupingKey.same_equivalence`: keys are equal component by component, and
  that is an equivalence.
* `lawfulDigest_items_and_keys`: both equalities are those of hash tables, since equal values have equal
  digests.
-/

namespace HybridQuery

/-! ## Numbers -/

theorem Decimal.eq_iff {a b : Decimal} : a.eq b = true ↔ a.value = b.value := by
  rw [eq, beq_iff_eq, compare_eq, compare_eq_iff_eq]

theorem Decimal.value_ofInt (n : Int) : (ofInt n).value = n := by simp [ofInt, value]

theorem Decimal.value_of_nonpos {d : Decimal} (h : d.scale ≤ 0) :
    d.value = (d.coefficient * 10 ^ (-d.scale).toNat : Int) := by
  rw [value, zpow_eq_div (by norm_num), neg_neg, Int.toNat_of_nonpos h, pow_zero, div_one]
  push_cast
  rfl

theorem Decimal.value_of_nonneg {d : Decimal} (h : 0 ≤ d.scale) : d.value = d.coefficient / 10 ^ d.scale.toNat := by
  rw [value, zpow_eq_div (by norm_num), neg_neg, Int.toNat_of_nonpos (neg_nonpos.mpr h), pow_zero, mul_one_div]

/-- Cutting an integer to an integer changes nothing, at whatever scale it is written. -/
theorem Decimal.truncate_of_value {d : Decimal} {n : Int} (h : d.value = n) : d.truncate = n := by
  rw [truncate]
  split
  · rename_i hscale
    rw [value_of_nonpos hscale] at h
    rw [Power.ten_eq, Nat.cast_pow, Nat.cast_ofNat]
    exact_mod_cast h
  · rename_i hscale
    have hcoefficient : d.coefficient = n * 10 ^ d.scale.toNat := by
      rw [value_of_nonneg (by omega), div_eq_iff (by positivity)] at h
      exact_mod_cast h
    rw [Power.ten_eq, Nat.cast_pow, Nat.cast_ofNat, hcoefficient, Int.mul_tdiv_cancel _ (by positivity)]

namespace Double

/-- The number that a double stands for, or its place among the doubles that are no numbers. -/
def quantity (d : Float) : ℚ ⊕ Nat :=
  match denote d with
  | .finite negative mantissa exponent => .inl (exactDecimal negative mantissa exponent).value
  | special => .inr special.rank

theorem eq_iff {a b : Float} : eq a b = true ↔ quantity a = quantity b := by
  rw [eq, beq_iff_eq, compare, quantity, quantity]
  generalize denote a = x, denote b = y
  rcases x with _ | ⟨_ | _⟩ | _ <;> rcases y with _ | ⟨_ | _⟩ | _ <;>
    simp [Decimal.compare_eq, Denotation.rank]

theorem doubleIs_iff {d : Float} {x : Decimal} :
    Item.doubleIs d x = true ↔ quantity d = .inl x.value := by
  rw [Item.doubleIs, toDecimal?, quantity]
  cases denote d with
  | finite => rw [Sum.inl.injEq]; exact Decimal.eq_iff.trans eq_comm
  | nan | infinite => simp

theorem doubleIsInteger_iff {d : Float} {n : Int64} :
    Item.doubleIsInteger d n = true ↔ quantity d = .inl n.toInt := by
  constructor
  · intro h
    obtain ⟨y, hy, h⟩ := Item.doubleIsInteger_spec h
    rw [← Decimal.value_ofInt, ← doubleIs_iff, Item.doubleIs, hy]
    exact h
  · intro h
    rw [← Decimal.value_ofInt, ← doubleIs_iff, Item.doubleIs] at h
    rw [Item.doubleIsInteger]
    split at h
    · rename_i y hy
      have hwhole : y.truncate = n.toInt :=
        Decimal.truncate_of_value ((Decimal.eq_iff.mp h).symm.trans (Decimal.value_ofInt _))
      simp only [hwhole, h, n.minValue_le_toInt, n.toInt_le, Int64.ofInt_toInt, decide_true, Bool.and_self,
        beq_self_eq_true]
    · cases h

end Double

namespace Item

/-- The number that an item is, if it is one. -/
def quantity? : Item → Option (ℚ ⊕ Nat)
  | .integer n => some (.inl n.toInt)
  | .decimal d => some (.inl d.value)
  | .double d => some (Double.quantity d)
  | _ => none

theorem sameNumber_iff {a b : Item} :
    sameNumber a b = true ↔ ∃ q, a.quantity? = some q ∧ b.quantity? = some q := by
  have hsome {q q' : ℚ ⊕ Nat} : (∃ x, some q = some x ∧ some q' = some x) ↔ q = q' := by
    simp [eq_comm]
  cases a <;> cases b
  case integer.integer a b =>
    rw [quantity?, quantity?, hsome, Sum.inl.injEq, Int.cast_inj, Int64.toInt_inj]
    exact beq_iff_eq
  case integer.decimal a b =>
    rw [quantity?, quantity?, hsome, Sum.inl.injEq, ← Decimal.value_ofInt]
    exact Decimal.eq_iff
  case decimal.integer a b =>
    rw [quantity?, quantity?, hsome, Sum.inl.injEq, ← Decimal.value_ofInt]
    exact Decimal.eq_iff
  case decimal.decimal a b =>
    rw [quantity?, quantity?, hsome, Sum.inl.injEq]
    exact Decimal.eq_iff
  case integer.double a b =>
    rw [quantity?, quantity?, hsome]
    exact Double.doubleIsInteger_iff.trans eq_comm
  case double.integer a b =>
    rw [quantity?, quantity?, hsome]
    exact Double.doubleIsInteger_iff
  case decimal.double a b =>
    rw [quantity?, quantity?, hsome]
    exact Double.doubleIs_iff.trans eq_comm
  case double.decimal a b =>
    rw [quantity?, quantity?, hsome]
    exact Double.doubleIs_iff
  case double.double a b =>
    rw [quantity?, quantity?, hsome]
    exact Double.eq_iff
  all_goals simp [sameNumber, quantity?]

/-- Where equality is that of numbers. -/
theorem same_iff_quantity? {a b : Item} (h : same a b = sameNumber a b) :
    same a b = true ↔ ∃ q, a.quantity? = some q ∧ b.quantity? = some q := by rw [h, sameNumber_iff]

end Item

/-! ## Items -/

/-- What is left of an item if only equality looks at it. -/
inductive Worth where
  | null
  | boolean (b : Bool)
  | number (quantity : ℚ ⊕ Nat)
  | string (s : String)
  | date (d : Date)
  | dateTime (day : Int) (second nano : Nat)
  | time (second : Int) (nano : Nat)
  | duration (d : Duration)
  | binary (bytes : List UInt8)
  | object (pairs : List (String × Worth))
  | array (members : List Worth)
  | function (handle : Option Nat)

namespace Item

mutual
/-- What an item is worth. -/
def worth : Item → Worth
  | .null => .null
  | .boolean b => .boolean b
  | .integer n => .number (.inl n.toInt)
  | .decimal d => .number (.inl d.value)
  | .double d => .number (Double.quantity d)
  | .string s => .string s
  | .date d => .date d
  | .dateTime t => .dateTime t.day t.clock.second t.clock.nano
  | .time t => .time t.utcSecond t.clock.nano
  | .duration d => .duration d
  | .binary bytes => .binary bytes
  | .object pairs => .object (pairsWorth pairs)
  | .array members => .array (membersWorth members)
  | .function f => .function f.handle

/-- What the members of an array are worth. -/
def membersWorth : List Item → List Worth
  | [] => []
  | m :: rest => worth m :: membersWorth rest

/-- What the pairs of an object are worth. -/
def pairsWorth : List (String × Item) → List (String × Worth)
  | [] => []
  | (key, value) :: rest => (key, worth value) :: pairsWorth rest
end

mutual
/-- **Equality compares what items are worth.** -/
theorem same_iff : ∀ {a b : Item}, same a b = true ↔ a.worth = b.worth
  | a, b => by
    cases a <;> cases b
    case null.null => exact ⟨fun _ => rfl, fun _ => rfl⟩
    case boolean.boolean a b => rw [worth, worth, Worth.boolean.injEq]; exact beq_iff_eq
    case string.string a b => rw [worth, worth, Worth.string.injEq]; exact beq_iff_eq
    case date.date a b => rw [worth, worth, Worth.date.injEq]; exact beq_iff_eq
    case duration.duration a b => rw [worth, worth, Worth.duration.injEq]; exact beq_iff_eq
    case binary.binary a b => rw [worth, worth, Worth.binary.injEq]; exact beq_iff_eq
    case dateTime.dateTime a b =>
      rw [worth, worth, Worth.dateTime.injEq]
      refine beq_iff_eq.trans (Ordering.then_eq_eq.trans (and_congr compare_eq_iff_eq ?_))
      exact Ordering.then_eq_eq.trans (and_congr compare_eq_iff_eq compare_eq_iff_eq)
    case time.time a b =>
      rw [worth, worth, Worth.time.injEq]
      exact beq_iff_eq.trans
        (Ordering.then_eq_eq.trans (and_congr compare_eq_iff_eq compare_eq_iff_eq))
    case object.object a b => rw [worth, worth, Worth.object.injEq]; exact samePairs_iff
    case array.array a b => rw [worth, worth, Worth.array.injEq]; exact sameMembers_iff
    case function.function f g => rw [worth, worth, Worth.function.injEq]; exact beq_iff_eq
    all_goals
      refine (same_iff_quantity? rfl).trans ?_
      simp [quantity?, worth, eq_comm]

theorem sameMembers_iff : ∀ {as bs : List Item},
    sameMembers as bs = true ↔ membersWorth as = membersWorth bs
  | [], [] => ⟨fun _ => rfl, fun _ => rfl⟩
  | [], _ :: _ => ⟨fun h => (nomatch h), fun h => (nomatch h)⟩
  | _ :: _, [] => ⟨fun h => (nomatch h), fun h => (nomatch h)⟩
  | a :: as, b :: bs => by
    rw [sameMembers, Bool.and_eq_true, same_iff, sameMembers_iff, membersWorth, membersWorth,
      List.cons.injEq]

theorem samePairs_iff : ∀ {as bs : List (String × Item)},
    samePairs as bs = true ↔ pairsWorth as = pairsWorth bs
  | [], [] => ⟨fun _ => rfl, fun _ => rfl⟩
  | [], _ :: _ => ⟨fun h => (nomatch h), fun h => (nomatch h)⟩
  | _ :: _, [] => ⟨fun h => (nomatch h), fun h => (nomatch h)⟩
  | (key, value) :: as, (key', value') :: bs => by
    rw [samePairs, Bool.and_eq_true, Bool.and_eq_true, beq_iff_eq, same_iff, samePairs_iff, pairsWorth,
      pairsWorth, List.cons.injEq, Prod.mk.injEq]
end

theorem same_equivalence : Equivalence fun a b : Item => same a b = true where
  refl _ := same_iff.mpr rfl
  symm h := same_iff.mpr (same_iff.mp h).symm
  trans h h' := same_iff.mpr ((same_iff.mp h).trans (same_iff.mp h'))

end Item

/-! ## Grouping keys -/

namespace GroupingKey

/-- Keys are equal if what their components are worth is: an empty sequence like an empty sequence, an
atomic like an equal one. -/
theorem same_iff {a b : GroupingKey} :
    same a b = true ↔ a.map (Option.map Item.worth) = b.map (Option.map Item.worth) := by
  have hcomponent (x y : Option Item) :
      sameComponent x y = true ↔ x.map Item.worth = y.map Item.worth := by
    cases x <;> cases y <;> simp [sameComponent, Item.same_iff]
  induction a generalizing b with
  | nil => cases b <;> simp [same]
  | cons x a ih =>
    cases b with
    | nil => simp [same]
    | cons y b =>
      rw [same, Bool.and_eq_true, List.map_cons, List.map_cons, List.cons.injEq]
      exact and_congr (hcomponent x y) ih

theorem same_equivalence : Equivalence fun a b : GroupingKey => same a b = true where
  refl _ := same_iff.mpr rfl
  symm h := same_iff.mpr (same_iff.mp h).symm
  trans h h' := same_iff.mpr ((same_iff.mp h).trans (same_iff.mp h'))

end GroupingKey

/-! ## Hash tables -/

/-- An equality and a digest that a hash table can use together: an equivalence of which equal values have the
same digest. -/
structure LawfulDigest {α : Type} (same : α → α → Bool) (digest : α → Digest) : Prop where
  equivalence : Equivalence fun a b => same a b = true
  digest_eq : ∀ a b, same a b = true → digest a = digest b

/-- **Items and grouping keys can be the keys of a hash table**: their equalities are equivalences, and equal
items or keys have the same digest. -/
theorem lawfulDigest_items_and_keys :
    LawfulDigest Item.same Item.digest ∧ LawfulDigest GroupingKey.same GroupingKey.digest where
  left := ⟨Item.same_equivalence, fun _ _ => Item.digest_eq_of_same⟩
  right := ⟨GroupingKey.same_equivalence, fun _ _ => GroupingKey.digest_eq_of_same⟩

/-- Numbers of three kinds, a NaN and a zero of either sign, and times of two zones, deep in an object. -/
theorem lawfulDigest_nested_numbers_and_times :
    Item.digest (.object [("k", .array [.integer 1, .double (Float.ofBits 0x7FF8000000000000),
        .double (Float.ofBits 0x8000000000000000), .time ⟨⟨36000, 0⟩, some 3600⟩])]) =
      Item.digest (.object [("k", .array [.decimal ⟨10, 1⟩, .double (Float.ofBits 0xFFF8000000000001),
        .double (Float.ofBits 0), .time ⟨⟨32400, 0⟩, none⟩])]) ∧
    GroupingKey.digest [some (.double (Float.ofBits 0x3FF0000000000000)), none] =
      GroupingKey.digest [some (.decimal ⟨100, 2⟩), none] :=
  ⟨lawfulDigest_items_and_keys.1.digest_eq _ _ (by decide +kernel),
    lawfulDigest_items_and_keys.2.digest_eq _ _ (by decide +kernel)⟩

end HybridQuery
