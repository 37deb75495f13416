import Mathlib.Data.Nat.Digits.Defs
import Mathlib.Tactic.Ring
import HybridQuery.Numeric.Decimal

/-!
# Numerals

What texts of digits stand for, with and without a sign before them, and which of them are read.

* `IsNumeral`, `numeral`: a text of digits, and its number.
* `IsSigned`, `signedNumeral`: the same with a sign that may stand before the digits.
* `int64?_eq_some_iff`: a number of 64 bits is read from a text with a sign.
-/

namespace HybridQuery

/-! ## Numerals -/

/-- A nonempty list of digits. -/
structure IsNumeral (ds : List Char) : Prop where
  nonempty : ds ≠ []
  digits : ∀ c ∈ ds, c.isDigit = true

instance (ds : List Char) : Decidable (IsNumeral ds) :=
  decidable_of_iff (ds ≠ [] ∧ ds.all Char.isDigit = true)
    ⟨fun h => ⟨h.1, List.all_eq_true.mp h.2⟩, fun h => ⟨h.nonempty, List.all_eq_true.mpr h.digits⟩⟩

/-- The number that a list of digits stands for. -/
def numeral (ds : List Char) : Nat := Nat.ofDigits 10 (ds.reverse.map fun c => c.toNat - '0'.toNat)

theorem numeral_append (a b : List Char) : numeral (a ++ b) = numeral a * 10 ^ b.length + numeral b := by
  simp only [numeral, List.reverse_append, List.map_append, Nat.ofDigits_append, List.length_map,
    List.length_reverse]
  ring

theorem numeral_singleton (c : Char) : numeral [c] = c.toNat - '0'.toNat := by simp [numeral]

theorem numeral_zeros (n : Nat) : numeral (List.replicate n '0') = 0 := by
  induction n with
  | zero => rfl
  | succ n ih => rw [List.replicate_succ', numeral_append, ih, numeral_singleton]; rfl

theorem digit_lt {c : Char} (h : c.isDigit = true) : c.toNat - '0'.toNat < 10 := by
  simp only [Char.isDigit, Bool.and_eq_true, decide_eq_true_eq] at h
  have : c.val.toNat ≤ 57 := h.2
  have hc : c.toNat = c.val.toNat := rfl
  have h0 : '0'.toNat = 48 := rfl
  omega

theorem numeral_lt {ds : List Char} (h : ∀ c ∈ ds, c.isDigit = true) : numeral ds < 10 ^ ds.length := by
  have := Nat.ofDigits_lt_base_pow_length (b := 10) (l := ds.reverse.map fun c => c.toNat - '0'.toNat)
    (by decide) fun x hx => by
      obtain ⟨c, hc, rfl⟩ := List.mem_map.mp hx
      exact digit_lt (h c (List.mem_reverse.mp hc))
  rwa [List.length_map, List.length_reverse] at this

theorem foldl_digits (ds : List Char) (n : Nat) :
    ds.foldl (fun n c => n * 10 + (c.toNat - '0'.toNat)) n = n * 10 ^ ds.length + numeral ds := by
  induction ds generalizing n with
  | nil => simp [numeral]
  | cons c ds ih =>
    rw [List.foldl_cons, ih, ← List.singleton_append, numeral_append, numeral_singleton, List.length_append,
      List.length_singleton]
    ring

theorem digitsValue?_eq_some_iff {ds : List Char} {n : Nat} :
    Decimal.digitsValue? ds = some n ↔ IsNumeral ds ∧ n = numeral ds := by
  rw [Decimal.digitsValue?, foldl_digits, Nat.zero_mul, Nat.zero_add]
  split
  case isTrue h =>
    have : ¬ IsNumeral ds := fun hn => by
      rw [Bool.or_eq_true, List.isEmpty_iff, Bool.not_eq_true', ← Bool.not_eq_true, List.all_eq_true] at h
      exact h.elim hn.nonempty fun h => h hn.digits
    simp [this]
  case isFalse h =>
    rw [Bool.or_eq_true, List.isEmpty_iff, Bool.not_eq_true', not_or, Bool.not_eq_false,
      List.all_eq_true] at h
    simp [show IsNumeral ds from ⟨h.1, h.2⟩, eq_comm]

/-! ## Integers with a sign -/

/-- What is left of a text without a sign before it. -/
def unsigned : List Char → List Char
  | '-' :: ds => ds
  | '+' :: ds => ds
  | ds => ds

/-- Digits that may have a sign before them. -/
def IsSigned (cs : List Char) : Prop := IsNumeral (unsigned cs)

/-- The number that digits stand for which may have a sign before them. -/
def signedNumeral (cs : List Char) : Int :=
  if cs.head? = some '-' then -(numeral (unsigned cs) : Int) else numeral (unsigned cs)

theorem unsigned_of_not_mem {cs : List Char} (hp : '+' ∉ cs) (hm : '-' ∉ cs) : unsigned cs = cs := by
  fun_cases unsigned cs <;> simp_all

theorem IsNumeral.not_mem {ds : List Char} (h : IsNumeral ds) {c : Char} (hc : c.isDigit = false) : c ∉ ds :=
  fun hm => by simp [h.digits c hm] at hc

theorem IsNumeral.unsigned {ds : List Char} (h : IsNumeral ds) : unsigned ds = ds :=
  unsigned_of_not_mem (h.not_mem (by decide)) (h.not_mem (by decide))

theorem IsNumeral.isSigned {ds : List Char} (h : IsNumeral ds) : IsSigned ds := by rwa [IsSigned, h.unsigned]

theorem IsNumeral.signedNumeral {ds : List Char} (h : IsNumeral ds) : signedNumeral ds = numeral ds := by
  have : ds.head? ≠ some '-' := fun hd => h.not_mem (by decide) (List.mem_of_mem_head? hd)
  rw [HybridQuery.signedNumeral, if_neg this, h.unsigned]

theorem IsSigned.not_mem {cs : List Char} (h : IsSigned cs) {c : Char} (hd : c.isDigit = false) (hp : c ≠ '+')
    (hm : c ≠ '-') : c ∉ cs := by
  have hc := IsNumeral.not_mem h hd
  revert hc
  fun_cases HybridQuery.unsigned cs <;> simp [hp, hm]

theorem signedValue?_eq (cs : List Char) :
    Decimal.signedValue? cs = (Decimal.digitsValue? (unsigned cs)).map fun n : Nat =>
      if cs.head? = some '-' then -(n : Int) else n := by
  fun_cases unsigned cs with
  | case1 ds => cases h : Decimal.digitsValue? ds <;> simp [Decimal.signedValue?, h]
  | case2 ds => cases h : Decimal.digitsValue? ds <;> simp [Decimal.signedValue?, h]
  | case3 cs hm hp =>
    have : cs.head? ≠ some '-' := fun h => by
      obtain ⟨ds, rfl⟩ := List.head?_eq_some_iff.mp h
      exact hm ds rfl
    rw [Decimal.signedValue?] <;> try assumption
    cases h : Decimal.digitsValue? cs <;> simp [this]

theorem signedValue?_eq_some_iff {cs : List Char} {n : Int} :
    Decimal.signedValue? cs = some n ↔ IsSigned cs ∧ n = signedNumeral cs := by
  rw [signedValue?_eq, Option.map_eq_some_iff, IsSigned, signedNumeral]
  simp only [digitsValue?_eq_some_iff]
  constructor
  · rintro ⟨_, ⟨h, rfl⟩, rfl⟩
    exact ⟨h, rfl⟩
  · rintro ⟨h, rfl⟩
    exact ⟨_, ⟨h, rfl⟩, rfl⟩

/-- Whether a number fits in 64 bits with a sign. -/
def Fits64 (n : Int) : Prop := -2 ^ 63 ≤ n ∧ n < 2 ^ 63

theorem fits64?_eq_some_iff {n m : Int} : fits64? n = some m ↔ Fits64 n ∧ m = n := by
  rw [fits64?, Option.ite_none_right_eq_some, Option.some_inj, eq_comm (a := n)]
  rfl

theorem int64?_eq_some_iff {cs : List Char} {n : Int} :
    int64? cs = some n ↔ IsSigned cs ∧ Fits64 (signedNumeral cs) ∧ n = signedNumeral cs := by
  rw [int64?, Option.bind_eq_some_iff]
  simp only [signedValue?_eq_some_iff, fits64?_eq_some_iff]
  constructor
  · rintro ⟨_, ⟨h, rfl⟩, hf, rfl⟩
    exact ⟨h, hf, rfl⟩
  · rintro ⟨h, hf, rfl⟩
    exact ⟨_, ⟨h, rfl⟩, hf, rfl⟩

end HybridQuery
