import HybridQuery.Flwor.Tuple
import HybridQuery.Proofs.Rounding

/-!
# Equal items have equal digests

The digest of a number is that of the double nearest to it, and equality is that of the exact numbers. The
two agree because what rounds is the number, at whatever scale it is written, and because a number that a
double denotes rounds to that double.

* `Double.ofDecimal_eq_of_eq`: equal decimals round to the same double.
* `Item.digest_eq_of_same`: equal items have equal digests, across the kinds of number.
* `GroupingKey.bucket_eq_of_same`: equal keys share a bucket.
-/

namespace HybridQuery

namespace Decimal

/-- Equal decimals are zero both, or have the same coefficient at the larger of their scales. -/
theorem coefficientAt_eq_of_eq {a b : Decimal} (h : a.eq b = true) :
    a.coefficient = 0 ∧ b.coefficient = 0 ∨ a.coefficient ≠ 0 ∧ b.coefficient ≠ 0 ∧
      a.coefficientAt (max a.scale b.scale) = b.coefficientAt (max a.scale b.scale) := by
  have hsame {x y : Int} (h : Ord.compare x y = .eq) : x = y := compare_eq_iff_eq.mp h
  rw [eq, beq_iff_eq, compare] at h
  split at h
  · rename_i hne
    exact absurd (hsame h) hne
  rename_i hsign
  have hsign : a.coefficient.sign = b.coefficient.sign := not_not.mp hsign
  split at h
  · rename_i hzero
    rw [hzero, Int.sign_zero, eq_comm, Int.sign_eq_zero_iff_zero] at hsign
    exact .inl ⟨hzero, hsign⟩
  rename_i hzero
  have hzero' : b.coefficient ≠ 0 := fun hb => by
    rw [hb, Int.sign_zero, Int.sign_eq_zero_iff_zero] at hsign
    exact hzero hsign
  split at h
  · rename_i hne
    split at h
    · exact absurd (hsame h) hne
    · exact absurd (hsame h).symm hne
  · exact .inr ⟨hzero, hzero', hsame h⟩

end Decimal

/-! ## Numbers -/

namespace Double

/-- Equal decimals round to the same double. -/
theorem ofDecimal_eq_of_eq {a b : Decimal} (h : a.eq b = true) : ofDecimal a = ofDecimal b := by
  obtain ⟨ha, hb⟩ | ⟨-, -, h⟩ := Decimal.coefficientAt_eq_of_eq h
  · simp [ofDecimal, ha, hb]
  have hat (x : Decimal) {s : Int} (hs : x.scale ≤ s) : ofDecimal ⟨x.coefficientAt s, s⟩ = ofDecimal x := by
    rw [Decimal.coefficientAt, Power.ten_eq, Nat.cast_pow, Nat.cast_ofNat, ofDecimal_mul_pow]
    congr 2
    omega
  rw [← hat a (le_max_left a.scale b.scale), h, hat b (le_max_right _ _)]

theorem toDecimal?_of_finite {d : Float} {negative : Bool} {mantissa : Nat} {exponent : Int}
    (h : denote d = .finite negative mantissa exponent) :
    toDecimal? d = some (exactDecimal negative mantissa exponent) := by
  rw [toDecimal?, h]

/-- A double that is a number has the digest of what its number rounds to. The zeros round to the positive
one. -/
theorem doubleDigest_of_toDecimal? {d : Float} {x : Decimal} (h : toDecimal? d = some x) :
    Item.doubleDigest d = Item.doubleDigest (ofDecimal x) := by
  rw [toDecimal?] at h
  split at h
  · rename_i negative mantissa exponent hd
    cases h
    rcases eq_or_ne mantissa 0 with rfl | hne
    · have hzero : ofDecimal (exactDecimal negative 0 exponent) = ofSize false 0 := by
        have hcoefficient : (exactDecimal negative 0 exponent).coefficient = 0 := by
          rw [exactDecimal]
          split <;> simp
        simp [ofDecimal, hcoefficient]
      have hdenote : denote (ofSize false 0) = .finite false 0 leastExponent := by
        rw [denote_ofSize false (Nat.zero_le _), if_neg (by decide), if_pos (by decide)]
      simp [hzero, Item.doubleDigest, isNaN, isZero, hd, hdenote]
    · rw [ofDecimal_exactDecimal hd hne]
  · cases h

/-- Equal doubles denote equal numbers, or are alike in not being finite. -/
theorem cases_of_eq {a b : Float} (h : eq a b = true) :
    (∃ x y, toDecimal? a = some x ∧ toDecimal? b = some y ∧ x.eq y = true) ∨
      Item.doubleDigest a = Item.doubleDigest b := by
  rw [eq, compare, beq_iff_eq] at h
  cases ha : denote a <;> cases hb : denote b <;> rw [ha, hb] at h <;> dsimp only at h
  case finite.finite =>
    exact .inl ⟨_, _, toDecimal?_of_finite ha, toDecimal?_of_finite hb, by rw [Decimal.eq, h]; rfl⟩
  case nan.nan =>
    refine .inr ?_
    simp [Item.doubleDigest, isNaN, ha, hb]
  case infinite.infinite s t =>
    refine .inr ?_
    have hst : s = t := by
      cases s <;> cases t <;> first | rfl | exact absurd h (by decide)
    rw [eq_ofSize_of_infinite ha, eq_ofSize_of_infinite hb, hst]
  case nan.infinite s | infinite.nan s => cases s <;> exact absurd h (by decide)
  case nan.finite => exact absurd h (show Ord.compare 0 2 ≠ .eq by decide)
  case finite.nan => exact absurd h (show Ord.compare 2 0 ≠ .eq by decide)
  case infinite.finite s _ _ _ =>
    cases s
    · exact absurd h (show Ord.compare 3 2 ≠ .eq by decide)
    · exact absurd h (show Ord.compare 1 2 ≠ .eq by decide)
  case finite.infinite s =>
    cases s
    · exact absurd h (show Ord.compare 2 3 ≠ .eq by decide)
    · exact absurd h (show Ord.compare 2 1 ≠ .eq by decide)

end Double

namespace Item

theorem doubleIs_spec {d : Float} {x : Decimal} (h : doubleIs d x = true) :
    ∃ y, Double.toDecimal? d = some y ∧ x.eq y = true := by
  rw [doubleIs] at h
  split at h
  · exact ⟨_, ‹_›, h⟩
  · cases h

theorem doubleIsInteger_spec {d : Float} {n : Int64} (h : doubleIsInteger d n = true) :
    ∃ y, Double.toDecimal? d = some y ∧ (Decimal.ofInt n.toInt).eq y = true := by
  rw [doubleIsInteger] at h
  split at h
  · rename_i y hy
    simp only [Bool.and_eq_true, decide_eq_true_eq, beq_iff_eq] at h
    obtain ⟨⟨⟨hwhole, hlow⟩, hhigh⟩, hn⟩ := h
    rw [← hn, Int64.toInt_ofInt_of_le hlow (Int.lt_of_le_of_lt hhigh (by decide))]
    exact ⟨y, hy, hwhole⟩
  · cases h

/-! ## Items -/

theorem digest_of_isNumeric {a : Item} (h : a.isNumeric = true) : a.digest = [2, a.numberDigest] := by
  cases a <;> first | rfl | cases h

/-- A number has the digest of what its exact value rounds to. -/
theorem numberDigest_of_exact {a : Item} {x : Decimal} (h : a.exactValue? = some x) :
    a.numberDigest = doubleDigest (Double.ofDecimal x) := by
  cases a <;> try cases h
  case integer | decimal => rfl
  case double d => exact Double.doubleDigest_of_toDecimal? h

theorem numberDigest_eq_of_exact {a b : Item} {x y : Decimal} (ha : a.exactValue? = some x)
    (hb : b.exactValue? = some y) (h : x.eq y = true) : a.numberDigest = b.numberDigest := by
  rw [numberDigest_of_exact ha, numberDigest_of_exact hb, Double.ofDecimal_eq_of_eq h]

/-- Equal numbers have the same digest, whatever their kinds. -/
theorem digest_eq_of_sameNumber {a b : Item} (h : sameNumber a b = true) : a.digest = b.digest := by
  have hnumbers : a.isNumeric = true ∧ b.isNumeric = true := by
    cases a <;> cases b <;> first | exact ⟨rfl, rfl⟩ | cases h
  rw [digest_of_isNumeric hnumbers.1, digest_of_isNumeric hnumbers.2]
  congr 2
  cases a <;> cases b <;> try cases h
  case integer.integer a b =>
    rw [beq_iff_eq.mp (show (a == b) = true from h)]
  case integer.decimal | decimal.integer | decimal.decimal =>
    exact numberDigest_eq_of_exact rfl rfl h
  case integer.double =>
    obtain ⟨y, hy, h⟩ := doubleIsInteger_spec h
    exact numberDigest_eq_of_exact (b := .double _) rfl hy h
  case double.integer =>
    obtain ⟨y, hy, h⟩ := doubleIsInteger_spec h
    exact (numberDigest_eq_of_exact (b := .double _) rfl hy h).symm
  case decimal.double =>
    obtain ⟨y, hy, h⟩ := doubleIs_spec h
    exact numberDigest_eq_of_exact (b := .double _) rfl hy h
  case double.decimal =>
    obtain ⟨y, hy, h⟩ := doubleIs_spec h
    exact (numberDigest_eq_of_exact (b := .double _) rfl hy h).symm
  case double.double =>
    obtain ⟨x, y, hx, hy, h⟩ | h := Double.cases_of_eq h
    · exact numberDigest_eq_of_exact hx hy h
    · exact h

mutual
/-- Equal items have equal digests. -/
theorem digest_eq_of_same : ∀ {a b : Item}, same a b = true → a.digest = b.digest
  | a, b, h => by
    cases a <;> cases b
    case null.null => rfl
    case boolean.boolean a b => rw [beq_iff_eq.mp (show (a == b) = true from h)]
    case string.string a b => rw [beq_iff_eq.mp (show (a == b) = true from h)]
    case date.date a b => rw [beq_iff_eq.mp (show (a == b) = true from h)]
    case duration.duration a b => rw [beq_iff_eq.mp (show (a == b) = true from h)]
    case binary.binary a b => rw [beq_iff_eq.mp (show (a == b) = true from h)]
    case dateTime.dateTime a b =>
      obtain ⟨hday, hclock⟩ := Ordering.then_eq_eq.mp (beq_iff_eq.mp h)
      obtain ⟨hsecond, hnano⟩ := Ordering.then_eq_eq.mp hclock
      rw [digest, digest, compare_eq_iff_eq.mp hday, compare_eq_iff_eq.mp hsecond,
        compare_eq_iff_eq.mp hnano]
    case time.time a b =>
      obtain ⟨hsecond, hnano⟩ := Ordering.then_eq_eq.mp (beq_iff_eq.mp h)
      rw [digest, digest, compare_eq_iff_eq.mp hsecond, compare_eq_iff_eq.mp hnano]
    case object.object a b =>
      obtain ⟨hlength, hdigests⟩ := pairDigests_eq_of_same (show samePairs a b = true from h)
      rw [digest, digest, hlength, hdigests]
    case array.array a b =>
      obtain ⟨hlength, hdigests⟩ := memberDigests_eq_of_same (show sameMembers a b = true from h)
      rw [digest, digest, hlength, hdigests]
    case function.function f g =>
      have hhandle : f.handle = g.handle := beq_iff_eq.mp h
      rw [digest, digest, hhandle]
    all_goals exact digest_eq_of_sameNumber h

theorem memberDigests_eq_of_same : ∀ {as bs : List Item}, sameMembers as bs = true →
    as.length = bs.length ∧ memberDigests as = memberDigests bs
  | [], [], _ => ⟨rfl, rfl⟩
  | a :: as, b :: bs, h => by
    rw [sameMembers, Bool.and_eq_true] at h
    obtain ⟨hlength, hdigests⟩ := memberDigests_eq_of_same h.2
    exact ⟨congrArg (· + 1) hlength, by
      rw [memberDigests, memberDigests, digest_eq_of_same h.1, hdigests]⟩
  | [], _ :: _, h | _ :: _, [], h => by simp [sameMembers] at h

theorem pairDigests_eq_of_same : ∀ {as bs : List (String × Item)}, samePairs as bs = true →
    as.length = bs.length ∧ pairDigests as = pairDigests bs
  | [], [], _ => ⟨rfl, rfl⟩
  | (k, a) :: as, (l, b) :: bs, h => by
    rw [samePairs, Bool.and_eq_true, Bool.and_eq_true, beq_iff_eq] at h
    obtain ⟨⟨hkey, hvalue⟩, h⟩ := h
    obtain ⟨hlength, hdigests⟩ := pairDigests_eq_of_same h
    exact ⟨congrArg (· + 1) hlength, by
      rw [pairDigests, pairDigests, hkey, digest_eq_of_same hvalue, hdigests]⟩
  | [], _ :: _, h | _ :: _, [], h => by simp [samePairs] at h
end

end Item

/-! ## Keys -/

namespace GroupingKey

theorem componentDigest_eq_of_same {a b : Option Item} (h : sameComponent a b = true) :
    componentDigest a = componentDigest b := by
  cases a <;> cases b
  case none.none => rfl
  case some.some a b => exact congrArg (1 :: ·) (Item.digest_eq_of_same h)
  all_goals cases h

theorem digest_eq_of_same {a b : GroupingKey} (h : same a b = true) : digest a = digest b := by
  have hcomponents : a.length = b.length ∧ a.flatMap componentDigest = b.flatMap componentDigest := by
    induction a generalizing b with
    | nil => cases b <;> [exact ⟨rfl, rfl⟩; cases h]
    | cons x a ih =>
      cases b with
      | nil => cases h
      | cons y b =>
        rw [same, Bool.and_eq_true] at h
        obtain ⟨hlength, hdigest⟩ := ih h.2
        exact ⟨congrArg (· + 1) hlength, by
          rw [List.flatMap_cons, List.flatMap_cons, componentDigest_eq_of_same h.1, hdigest]⟩
  rw [digest, digest, hcomponents.1, hcomponents.2]

/-- **Equal keys share a bucket.** -/
theorem bucket_eq_of_same {a b : GroupingKey} (h : same a b = true) : bucket a = bucket b :=
  congrArg hashOf (digest_eq_of_same h)

end GroupingKey
end HybridQuery
