import HybridQuery.Proofs.Collections
import HybridQuery.Proofs.Ordering.Clauses

/-!
# Sorting a collection by keys

With keys and a comparison that never fail, sorting a collection by keys is the stable sort of its
records: each partition is sorted by itself, and the merge gives what one sort of all records gives.

* `filter_mergeSort`: the library's sort keeps the order of records with equal keys, and so it meets
  the specification that sorting partitions and merging them is proved to meet.
* `Collection.sortBy_eq_mergeSort`: sorting a collection by keys.
-/

namespace HybridQuery

variable {α κ ε : Type} {order : κ → κ → Ordering} [Std.TransCmp order]

/-! ## The library's sort -/

section
variable (order) (keyOf : α → κ)

/-- Whether the key of a record is not greater than that of another. -/
def keyLE (a b : α) : Bool := (order (keyOf a) (keyOf b)).isLE

theorem keyLE_trans (a b c : α) :
    keyLE order keyOf a b = true → keyLE order keyOf b c = true → keyLE order keyOf a c = true :=
  Std.TransCmp.isLE_trans

theorem keyLE_total (a b : α) : (keyLE order keyOf a b || keyLE order keyOf b a) = true := by
  have hswap : order (keyOf b) (keyOf a) = (order (keyOf a) (keyOf b)).swap :=
    Std.OrientedCmp.eq_swap
  unfold keyLE
  rw [hswap]
  cases order (keyOf a) (keyOf b) <;> rfl

/-- Records with equal keys keep their order. -/
theorem filter_mergeSort (l : List α) (x : κ) :
    (l.mergeSort (keyLE order keyOf)).filter (fun a => order (keyOf a) x == .eq) =
      l.filter fun a => order (keyOf a) x == .eq := by
  have hperm := (List.mergeSort_perm l (keyLE order keyOf)).filter fun a => order (keyOf a) x == .eq
  have hclass : (l.filter fun a => order (keyOf a) x == .eq).Pairwise
      fun a b => keyLE order keyOf a b = true := by
    refine List.pairwise_iff_forall_sublist.mpr fun {a b} hab => ?_
    have ha := (List.mem_filter.mp (hab.subset (by simp : a ∈ [a, b]))).2
    have hb := (List.mem_filter.mp (hab.subset (by simp : b ∈ [a, b]))).2
    have hxb := Std.OrientedCmp.eq_symm (eq_of_beq hb)
    unfold keyLE
    exact Std.TransCmp.isLE_trans (by rw [eq_of_beq ha]; rfl) (by rw [hxb]; rfl)
  have hsub := (List.sublist_mergeSort (keyLE_trans order keyOf) (keyLE_total order keyOf) hclass
    List.filter_sublist).filter fun a => order (keyOf a) x == .eq
  rw [List.filter_filter] at hsub
  simp only [Bool.and_self] at hsub
  exact (hsub.eq_of_length hperm.length_eq.symm).symm

end

/-! ## Comparisons that never fail -/

section
variable {compare : κ → κ → Except ε Ordering} (hcompare : ∀ x y, compare x y = .ok (order x y))
include hcompare

theorem Coherent.of_order : Coherent compare fun _ => True where
  swap {x y o} _ _ h := by
    rw [hcompare] at h ⊢
    cases h
    exact congrArg _ Std.OrientedCmp.eq_swap
  trans {x y z} _ _ _ hxy hyz := by
    obtain ⟨_, hxy, hle⟩ := hxy
    obtain ⟨_, hyz, hle'⟩ := hyz
    cases (hcompare x y).symm.trans hxy
    cases (hcompare y z).symm.trans hyz
    exact ⟨_, hcompare x z, Std.TransCmp.isLE_trans hle hle'⟩

omit [Std.TransCmp order] in
theorem level_eq (x y : κ) : level compare x y = (order x y == .eq) := by
  rw [level, hcompare]
  cases order x y <;> rfl

/-- The library's sort meets the specification. -/
theorem stablySorts_mergeSort (keyOf : α → κ) (l : List α) :
    StablySorts compare (l.map fun a => (keyOf a, a))
      ((l.mergeSort (keyLE order keyOf)).map fun a => (keyOf a, a)) where
  perm := (List.mergeSort_perm l _).map _
  ordered := by
    refine List.pairwise_map.mpr ?_
    exact (List.pairwise_mergeSort (keyLE_trans order keyOf) (keyLE_total order keyOf) l).imp
      fun hle => ⟨_, hcompare _ _, hle⟩
  stable r _ := by
    simp only [level_eq hcompare, List.filter_map]
    exact congrArg _ (filter_mergeSort order keyOf l r.1)

end

/-! ## Collections -/

namespace Collection

theorem numPartitions_mapM {β : Type} {f : α → Except ε β} {c : Collection α} {d : Collection β}
    (h : c.mapM f = .ok d) : d.numPartitions = c.numPartitions := by
  unfold mapM at h
  cases hp : c.partitions.mapM fun partition => partition.mapM f with
  | error e => rw [hp] at h; cases h
  | ok partitions =>
    rw [hp] at h
    cases h
    exact length_of_mapM_ok hp

/-- **Sorting by keys is the stable sort.** If no key fails, nor the comparison, which is a total
preorder, then sorting a collection succeeds, and its records are those of the collection as a list
sort has them, however they are partitioned: in the order of their keys, records with equal keys in
the order that they had. -/
theorem sortBy_eq_mergeSort {compare : κ → κ → Except ε Ordering}
    (hcompare : ∀ x y, compare x y = .ok (order x y)) {key : α → Except ε κ} {keyOf : α → κ}
    {c : Collection α} (hkey : ∀ a ∈ c.records, key a = .ok (keyOf a)) :
    ∃ sorted, (do (← c.mapM fun a => return (← key a, a)).sortKeyed compare) = .ok sorted ∧
      sorted.records = c.records.mergeSort (keyLE order keyOf) ∧
      sorted.records.Perm c.records ∧
      (sorted.records.Pairwise fun a b => (order (keyOf a) (keyOf b)).isLE = true) ∧
      (∀ x, sorted.records.filter (fun a => order (keyOf a) x == .eq) =
        c.records.filter fun a => order (keyOf a) x == .eq) ∧
      sorted.numPartitions ≤ max c.numPartitions 1 := by
  have hpaired : ∀ a ∈ c.records, (do return (← key a, a)) = .ok (keyOf a, a) := fun a ha => by
    rw [hkey a ha]
    rfl
  have hmirrors := mirrors_mapM (fun a => do return (← key a, a)) c
  obtain ⟨keyed, hkeyed⟩ := hmirrors.succeeds_iff.mpr fun a ha => ⟨_, hpaired a ha⟩
  have hrecords : keyed.records = c.records.map fun a => (keyOf a, a) :=
    hmirrors.records_eq hpaired hkeyed
  have hcoherent := Coherent.of_order hcompare
  have hcomparable : keyed.records.Pairwise fun a b => Comparable compare a.1 b.1 :=
    List.pairwise_of_forall fun a b => ⟨_, hcompare a.1 b.1⟩
  obtain ⟨sorted, hsorted⟩ :=
    (exists_sortKeyed_iff hcoherent fun _ _ => trivial).mpr hcomparable
  obtain ⟨pairs, hpairs, heq⟩ := stablySorts_of_sortKeyed hcoherent (fun _ _ => trivial) hsorted
  rw [hrecords] at hpairs
  have hunique := hpairs.unique hcoherent (fun _ _ => trivial)
    (stablySorts_mergeSort hcompare keyOf c.records)
  have hmerge : sorted.records = c.records.mergeSort (keyLE order keyOf) := by
    rw [heq, hunique, List.map_map]
    exact List.map_id _
  refine ⟨sorted, by rw [hkeyed]; exact hsorted, hmerge, ?_⟩
  rw [hmerge]
  refine ⟨List.mergeSort_perm _ _,
    List.pairwise_mergeSort (keyLE_trans order keyOf) (keyLE_total order keyOf) _,
    filter_mergeSort order keyOf _, ?_⟩
  obtain ⟨-, merged, -, -, rfl⟩ := sortKeyed_ok_iff.mp hsorted
  exact (numPartitions_parallelize_le merged _).trans_eq (by rw [numPartitions_mapM hkeyed])

/-- Even and odd numbers in three partitions, of which one is empty. -/
theorem sortBy_parity :
    (∀ x y : Nat, (pure (compare x y) : Except Unit Ordering) = .ok (compare x y)) ∧
      (∀ a ∈ (⟨[[5, 2], [], [4, 1, 8]]⟩ : Collection Nat).records,
        (pure (a % 2) : Except Unit Nat) = .ok (a % 2)) ∧
      ∃ sorted, (do (← (⟨[[5, 2], [], [4, 1, 8]]⟩ : Collection Nat).mapM fun a =>
          return (← (pure (a % 2) : Except Unit Nat), a)).sortKeyed fun x y => pure (compare x y)) =
          .ok sorted ∧
        sorted.partitions = [[2, 4], [8, 5], [1]] ∧ sorted.records.Perm [5, 2, 4, 1, 8] := by
  have hcompare (x y : Nat) : (pure (compare x y) : Except Unit Ordering) = .ok (compare x y) := rfl
  have hkey : ∀ a ∈ (⟨[[5, 2], [], [4, 1, 8]]⟩ : Collection Nat).records,
      (pure (a % 2) : Except Unit Nat) = .ok (a % 2) := fun _ _ => rfl
  obtain ⟨sorted, hsorted, -, hperm, -⟩ := sortBy_eq_mergeSort hcompare hkey
  refine ⟨hcompare, hkey, sorted, hsorted, ?_, hperm⟩
  cases hsorted
  rfl

end Collection
end HybridQuery
