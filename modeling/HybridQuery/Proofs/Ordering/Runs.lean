import Mathlib.Data.List.Induction
import HybridQuery.Proofs.Meaning.Success

/-!
# Stable sorting by a comparison that may fail

A comparison may have no answer for some keys. All that sorting needs of it is that an answer turns
round with its keys and that what stands in a row is comparable from end to end (`Coherent`). Then no
failure is missed: a sort that has seen none has put every record next to one that it was compared
with, and so along the row all records compare. The same holds of a merge, which compares fronts only.

* `StablySorts`: the specification; `StablySorts.unique` says that it has one answer.
* `exists_sortRun_iff`, `stablySorts_of_sortRun`: sorting one run.
* `exists_mergeRuns`, `mergeRuns_spec`: merging sorted runs.
* `Collection.exists_sortKeyed_iff`, `Collection.stablySorts_of_sortKeyed`: both, over partitions.
-/

namespace HybridQuery

variable {ε κ α : Type}

/-! ## Comparisons -/

section
variable (compare : κ → κ → Except ε Ordering)

/-- The comparison has an answer. -/
def Comparable (a b : κ) : Prop := ∃ o, compare a b = .ok o

/-- The first key is not greater. -/
def NotAfter (a b : κ) : Prop := ∃ o, compare a b = .ok o ∧ o.isLE = true

/-- Whether two keys are equal in the order. -/
def level (a b : κ) : Bool :=
  match compare a b with
  | .ok .eq => true
  | _ => false

/-- A comparison that turns round with its keys, and reaches along a row of keys. -/
structure Coherent (P : κ → Prop) : Prop where
  swap : ∀ {a b o}, P a → P b → compare a b = .ok o → compare b a = .ok o.swap
  trans : ∀ {a b c}, P a → P b → P c → NotAfter compare a b → NotAfter compare b c →
    NotAfter compare a c

end

variable {compare : κ → κ → Except ε Ordering}

theorem level_iff {a b : κ} : level compare a b = true ↔ compare a b = .ok .eq := by
  unfold level
  split <;> simp_all

theorem NotAfter.comparable {a b : κ} (h : NotAfter compare a b) : Comparable compare a b :=
  h.imp fun _ h => h.1

theorem NotAfter.of_lt {a b : κ} (h : compare a b = .ok .lt) : NotAfter compare a b := ⟨.lt, h, rfl⟩

namespace Coherent

variable {P : κ → Prop} (h : Coherent compare P) {a b c : κ} (ha : P a) (hb : P b) (hc : P c)
include h

include ha hb in
theorem comparable_symm (hab : Comparable compare a b) : Comparable compare b a := by
  obtain ⟨o, ho⟩ := hab
  exact ⟨_, h.swap ha hb ho⟩

include ha hb in
/-- Keys that are not greater than each other are equal. -/
theorem eq_of_notAfter (hab : NotAfter compare a b) (hba : NotAfter compare b a) :
    compare a b = .ok .eq := by
  obtain ⟨o, ho, hle⟩ := hab
  obtain ⟨o', ho', hle'⟩ := hba
  cases (h.swap ha hb ho).symm.trans ho'
  cases o with
  | eq => exact ho
  | lt => cases hle'
  | gt => cases hle

include ha in
theorem eq_self (haa : NotAfter compare a a) : compare a a = .ok .eq := h.eq_of_notAfter ha ha haa haa

include ha hb hc in
/-- What is less than a key is less than the keys that are not less than that. -/
theorem lt_of_lt_of_notAfter (hab : compare a b = .ok .lt) (hbc : NotAfter compare b c) :
    compare a c = .ok .lt := by
  obtain ⟨o, ho, hle⟩ := h.trans ha hb hc (.of_lt hab) hbc
  cases o with
  | lt => exact ho
  | gt => cases hle
  | eq =>
    have hca : NotAfter compare c a := ⟨_, h.swap ha hc ho, rfl⟩
    have heq := h.eq_of_notAfter hb ha (h.trans hb hc ha hbc hca) (.of_lt hab)
    cases (h.swap ha hb hab).symm.trans heq

include ha hb hc in
theorem lt_of_notAfter_of_lt (hab : NotAfter compare a b) (hbc : compare b c = .ok .lt) :
    compare a c = .ok .lt := by
  obtain ⟨o, ho, hle⟩ := h.trans ha hb hc hab (.of_lt hbc)
  cases o with
  | lt => exact ho
  | gt => cases hle
  | eq =>
    have hca : NotAfter compare c a := ⟨_, h.swap ha hc ho, rfl⟩
    have heq := h.eq_of_notAfter hb hc (.of_lt hbc) (h.trans hc ha hb hca hab)
    cases hbc.symm.trans heq

include ha hb hc in
theorem level_trans (hac : compare a c = .ok .eq) (hbc : compare b c = .ok .eq) :
    compare a b = .ok .eq :=
  have hca : NotAfter compare c a := ⟨_, h.swap ha hc hac, rfl⟩
  have hcb : NotAfter compare c b := ⟨_, h.swap hb hc hbc, rfl⟩
  h.eq_of_notAfter ha hb (h.trans ha hc hb ⟨_, hac, rfl⟩ hcb) (h.trans hb hc ha ⟨_, hbc, rfl⟩ hca)

/-- Whether all records compare does not depend on their order. -/
theorem pairwise_perm {l l' : List (κ × α)} (hP : ∀ r ∈ l, P r.1) (hp : l.Perm l')
    (hcomp : l.Pairwise fun a b => Comparable compare a.1 b.1) :
    l'.Pairwise fun a b => Comparable compare a.1 b.1 := by
  have hall := hcomp.imp_of_mem fun ha hb hab => And.intro (hP _ ha) (And.intro (hP _ hb) hab)
  refine (hall.perm hp fun ⟨ha, hb, hab⟩ => ?_).imp fun hab => hab.2.2
  exact ⟨hb, ha, h.comparable_symm ha hb hab⟩

end Coherent

/-! ## The specification -/

/-- A list holds keyed records in the order of their keys; records with equal keys stand as they did
before. -/
structure StablySorts (compare : κ → κ → Except ε Ordering) (records sorted : List (κ × α)) : Prop where
  perm : sorted.Perm records
  ordered : sorted.Pairwise fun a b => NotAfter compare a.1 b.1
  stable : ∀ r ∈ records, sorted.filter (fun s => level compare s.1 r.1) =
    records.filter fun s => level compare s.1 r.1

namespace StablySorts

variable {P : κ → Prop} {records sorted : List (κ × α)}

/-- Records that are sorted all compare. -/
theorem comparable (h : Coherent compare P) (hP : ∀ r ∈ records, P r.1)
    (hs : StablySorts compare records sorted) :
    records.Pairwise fun a b => Comparable compare a.1 b.1 := by
  exact h.pairwise_perm (fun r hr => hP r (hs.perm.mem_iff.mp hr)) hs.perm
    (hs.ordered.imp NotAfter.comparable)

/-- There is one stable sort. -/
theorem unique (h : Coherent compare P) (hP : ∀ r ∈ records, P r.1) {sorted' : List (κ × α)}
    (hs : StablySorts compare records sorted) (hs' : StablySorts compare records sorted') :
    sorted = sorted' := by
  have hfilter : ∀ r ∈ sorted, sorted.filter (fun s => level compare s.1 r.1) =
      sorted'.filter fun s => level compare s.1 r.1 := fun r hr => by
    have hr := hs.perm.mem_iff.mp hr
    rw [hs.stable r hr, hs'.stable r hr]
  have hP : ∀ r ∈ sorted, P r.1 := fun r hr => hP r (hs.perm.mem_iff.mp hr)
  have hperm := hs.perm.trans hs'.perm.symm
  have ho := hs.ordered
  have ho' := hs'.ordered
  clear hs hs'
  -- The first records are equal: if they were two, they would be level, and so stand in one class.
  induction sorted generalizing sorted' with
  | nil => exact hperm.nil_eq
  | cons a rest ih =>
    cases sorted' with
    | nil => exact absurd hperm.length_eq (by simp)
    | cons b rest' =>
      have hab : a = b := by
        by_contra hne
        have hb : b ∈ rest := by simpa [Ne.symm hne] using hperm.mem_iff.mpr List.mem_cons_self
        have ha : a ∈ rest' := by simpa [hne] using hperm.mem_iff.mp List.mem_cons_self
        have hPa := hP a List.mem_cons_self
        have hPb := hP b (List.mem_cons_of_mem _ hb)
        have hle := List.rel_of_pairwise_cons ho hb
        have hge := List.rel_of_pairwise_cons ho' ha
        have hba := level_iff.mpr (h.eq_of_notAfter hPb hPa hge hle)
        have haa := level_iff.mpr (h.eq_self hPa (h.trans hPa hPb hPa hle hge))
        have hclass := hfilter a List.mem_cons_self
        simp only [List.filter_cons, haa, hba, ↓reduceIte] at hclass
        exact hne (List.cons.inj hclass).1
      subst hab
      congr 1
      refine ih (fun r hr => ?_) (fun r hr => hP r (List.mem_cons_of_mem _ hr)) hperm.cons_inv
        ho.of_cons ho'.of_cons
      have hclass := hfilter r (List.mem_cons_of_mem _ hr)
      simp only [List.filter_cons] at hclass
      split at hclass
      · exact (List.cons.inj hclass).2
      · exact hclass

end StablySorts

/-! ## One run -/

section
variable {P : κ → Prop} (h : Coherent compare P) {x : κ × α} {l : List (κ × α)}

/-- A failure stays. -/
theorem insertLast_failure (x : κ × α) (l : List (κ × α)) (failure : Option ε) :
    (insertLast compare x l failure).2 = failure.or (insertLast compare x l none).2 := by
  induction l with
  | nil => simp [insertLast]
  | cons y l ih =>
    unfold insertLast
    split
    · exact ih
    · simp
    · simp

theorem insertLast_perm (x : κ × α) (l : List (κ × α)) (failure : Option ε) :
    (insertLast compare x l failure).1.Perm (x :: l) := by
  induction l with
  | nil => exact .refl _
  | cons y l ih =>
    unfold insertLast
    split
    · exact (ih.cons y).trans (.swap x y l)
    · exact .refl _
    · exact .refl _

/-- Comparable records are inserted without a failure. -/
theorem insertLast_eq_none (hx : ∀ y ∈ l, Comparable compare x.1 y.1) :
    (insertLast compare x l none).2 = none := by
  induction l with
  | nil => rfl
  | cons y l ih =>
    obtain ⟨o, ho⟩ := hx y List.mem_cons_self
    have hrest := ih fun z hz => hx z (List.mem_cons_of_mem _ hz)
    cases o <;> simp [insertLast, ho, hrest]

include h in
/-- An insertion without a failure keeps the records in order, from the last to the first. -/
theorem insertLast_ordered (hx : P x.1) (hl : ∀ y ∈ l, P y.1)
    (ho : l.Pairwise fun a b => NotAfter compare b.1 a.1)
    (hok : (insertLast compare x l none).2 = none) :
    (insertLast compare x l none).1.Pairwise fun a b => NotAfter compare b.1 a.1 := by
  induction l with
  | nil => exact List.pairwise_singleton _ _
  | cons y l ih =>
    have hy := hl y List.mem_cons_self
    have hrest : ∀ z ∈ l, P z.1 := fun z hz => hl z (List.mem_cons_of_mem _ hz)
    unfold insertLast at hok ⊢
    cases hc : compare x.1 y.1 with
    | error e => simp [hc] at hok
    | ok o =>
      cases o with
      | lt =>
        simp only [hc] at hok ⊢
        refine List.pairwise_cons.mpr ⟨fun z hz => ?_, ih hrest ho.of_cons hok⟩
        obtain rfl | hz := List.mem_cons.mp ((insertLast_perm x l none).mem_iff.mp hz)
        · exact .of_lt hc
        · exact List.rel_of_pairwise_cons ho hz
      | eq | gt =>
        have hyx : NotAfter compare y.1 x.1 := ⟨_, h.swap hx hy hc, rfl⟩
        refine List.pairwise_cons.mpr ⟨fun z hz => ?_, ho⟩
        obtain rfl | hz := List.mem_cons.mp hz
        · exact hyx
        · exact h.trans (hrest z hz) hy hx (List.rel_of_pairwise_cons ho hz) hyx

include h in
/-- An insertion puts a record behind those of its class. -/
theorem filter_insertLast (hx : P x.1) (hl : ∀ y ∈ l, P y.1) {k : κ} (hk : P k) :
    (insertLast compare x l none).1.filter (fun s => level compare s.1 k) =
      (x :: l).filter fun s => level compare s.1 k := by
  induction l with
  | nil => rfl
  | cons y l ih =>
    unfold insertLast
    cases hc : compare x.1 y.1 with
    | error e => rfl
    | ok o =>
      cases o with
      | eq | gt => rfl
      | lt =>
        have ih := ih fun z hz => hl z (List.mem_cons_of_mem _ hz)
        -- `x` passes `y`, so that they are not both in the class
        have hnot : ¬ (level compare x.1 k = true ∧ level compare y.1 k = true) := by
          rintro ⟨hxk, hyk⟩
          have heq := h.level_trans hx (hl y List.mem_cons_self) hk (level_iff.mp hxk)
            (level_iff.mp hyk)
          cases hc.symm.trans heq
        simp only [List.filter_cons] at ih ⊢
        rw [ih]
        cases hxk : level compare x.1 k <;> cases hyk : level compare y.1 k <;> simp_all

/-- Sorting one record after the other, from the last to the first. -/
def insertAll (compare : κ → κ → Except ε Ordering) (records : List (κ × α)) :
    List (κ × α) × Option ε :=
  records.foldl (fun (sorted, failure) x => insertLast compare x sorted failure) ([], none)

theorem insertAll_append (records : List (κ × α)) (x : κ × α) :
    insertAll compare (records ++ [x]) =
      insertLast compare x (insertAll compare records).1 (insertAll compare records).2 := by
  simp [insertAll, List.foldl_append]

theorem sortRun_eq (records : List (κ × α)) :
    sortRun compare records =
      match (insertAll compare records).2 with
      | some e => .error e
      | none => .ok (insertAll compare records).1.reverse := rfl

theorem insertAll_failure (records : List (κ × α)) (x : κ × α) :
    (insertAll compare (records ++ [x])).2 =
      (insertAll compare records).2.or (insertLast compare x (insertAll compare records).1 none).2 := by
  rw [insertAll_append, insertLast_failure]

theorem insertLast_fst (x : κ × α) (l : List (κ × α)) (failure : Option ε) :
    (insertLast compare x l failure).1 = (insertLast compare x l none).1 := by
  induction l with
  | nil => rfl
  | cons y l ih =>
    unfold insertLast
    split <;> simp [ih]

theorem insertAll_perm (records : List (κ × α)) : (insertAll compare records).1.Perm records := by
  induction records using List.reverseRecOn with
  | nil => exact .refl _
  | append_singleton records x ih =>
    rw [insertAll_append]
    refine (insertLast_perm x _ _).trans ((ih.cons x).trans ?_)
    exact (List.perm_append_singleton x records).symm

theorem insertAll_eq_none {records : List (κ × α)}
    (hc : records.Pairwise fun a b => Comparable compare b.1 a.1) :
    (insertAll compare records).2 = none := by
  induction records using List.reverseRecOn with
  | nil => rfl
  | append_singleton records x ih =>
    obtain ⟨hrecords, -, hx⟩ := List.pairwise_append.mp hc
    rw [insertAll_failure, ih hrecords, Option.none_or]
    exact insertLast_eq_none fun y hy => hx y ((insertAll_perm records).mem_iff.mp hy) x (by simp)

include h in
theorem insertAll_ordered {records : List (κ × α)} (hP : ∀ r ∈ records, P r.1)
    (hok : (insertAll compare records).2 = none) :
    (insertAll compare records).1.Pairwise fun a b => NotAfter compare b.1 a.1 := by
  induction records using List.reverseRecOn with
  | nil => exact .nil
  | append_singleton records x ih =>
    have hrecords : ∀ r ∈ records, P r.1 := fun r hr => hP r (by simp [hr])
    rw [insertAll_failure, Option.or_eq_none_iff] at hok
    rw [insertAll_append, insertLast_fst]
    exact insertLast_ordered h (hP x (by simp))
      (fun y hy => hrecords y ((insertAll_perm records).mem_iff.mp hy)) (ih hrecords hok.1) hok.2

include h in
theorem filter_insertAll {records : List (κ × α)} (hP : ∀ r ∈ records, P r.1) {k : κ} (hk : P k) :
    (insertAll compare records).1.filter (fun s => level compare s.1 k) =
      (records.filter fun s => level compare s.1 k).reverse := by
  induction records using List.reverseRecOn with
  | nil => rfl
  | append_singleton records x ih =>
    have hrecords : ∀ r ∈ records, P r.1 := fun r hr => hP r (by simp [hr])
    rw [insertAll_append, insertLast_fst, filter_insertLast h (hP x (by simp))
      (fun y hy => hrecords y ((insertAll_perm records).mem_iff.mp hy)) hk, List.filter_cons,
      ih hrecords, List.filter_append, List.reverse_append, List.filter_cons, List.filter_nil]
    split <;> rfl

theorem sortRun_ok_iff {records : List (κ × α)} {sorted : List (κ × α)} :
    sortRun compare records = .ok sorted ↔
      (insertAll compare records).2 = none ∧ (insertAll compare records).1.reverse = sorted := by
  rw [sortRun_eq]
  cases (insertAll compare records).2 <;> simp

include h in
/-- A run that is sorted without a failure is sorted, and stably so, whatever key the class is of. -/
theorem filter_sortRun {records sorted : List (κ × α)} (hP : ∀ r ∈ records, P r.1)
    (hs : sortRun compare records = .ok sorted) {k : κ} (hk : P k) :
    sorted.filter (fun s => level compare s.1 k) = records.filter fun s => level compare s.1 k := by
  obtain ⟨-, rfl⟩ := sortRun_ok_iff.mp hs
  rw [List.filter_reverse, filter_insertAll h hP hk, List.reverse_reverse]

include h in
theorem stablySorts_of_sortRun {records sorted : List (κ × α)} (hP : ∀ r ∈ records, P r.1)
    (hs : sortRun compare records = .ok sorted) : StablySorts compare records sorted := by
  obtain ⟨hok, rfl⟩ := sortRun_ok_iff.mp hs
  exact ⟨(List.reverse_perm _).trans (insertAll_perm records),
    List.pairwise_reverse.mpr (insertAll_ordered h hP hok), fun r hr => filter_sortRun h hP hs (hP r hr)⟩

include h in
theorem exists_sortRun_iff {records : List (κ × α)} (hP : ∀ r ∈ records, P r.1) :
    (∃ sorted, sortRun compare records = .ok sorted) ↔
      records.Pairwise fun a b => Comparable compare a.1 b.1 := by
  constructor
  · rintro ⟨sorted, hs⟩
    exact (stablySorts_of_sortRun h hP hs).comparable h hP
  · intro hc
    have hc' := hc.imp_of_mem fun ha hb => h.comparable_symm (hP _ ha) (hP _ hb)
    exact ⟨_, sortRun_ok_iff.mpr ⟨insertAll_eq_none hc', rfl⟩⟩

end

/-! ## The least front -/

/-- The record that leads the runs, with the place of its run: less than the fronts before it, and not
greater than those behind. -/
inductive Leader (compare : κ → κ → Except ε Ordering) :
    List (List (κ × α)) → Option (Nat × (κ × α)) → Prop
  | none {runs : List (List (κ × α))} (h : ∀ run ∈ runs, run = []) : Leader compare runs none
  | some {x : κ × α} {tail : List (κ × α)} {before after : List (List (κ × α))}
      (hbefore : ∀ run ∈ before, ∀ y ∈ run.head?, compare x.1 y.1 = .ok .lt)
      (hafter : ∀ run ∈ after, ∀ y ∈ run.head?, NotAfter compare x.1 y.1) :
      Leader compare (before ++ (x :: tail) :: after) (some (before.length, x))

section
variable {P : κ → Prop}

theorem Leader.snoc_nil {runs : List (List (κ × α))} {best : Option (Nat × (κ × α))}
    (hl : Leader compare runs best) : Leader compare (runs ++ [[]]) best := by
  cases hl with
  | none hnil => exact .none (by simpa [or_imp, forall_and] using hnil)
  | @some x tail before after hbefore hafter =>
    rw [List.append_assoc, List.cons_append]
    exact .some hbefore (by simpa [or_imp, forall_and] using hafter)

/-- The leader is found if all fronts compare. -/
theorem leader_go {runs rest : List (List (κ × α))} {best found : Option (Nat × (κ × α))}
    (h : Coherent compare P) (hP : ∀ r ∈ (runs ++ rest).flatten, P r.1)
    (hl : Leader compare runs best)
    (hgo : takeLeast.go compare best runs.length rest = .ok found) :
    Leader compare (runs ++ rest) found := by
  induction rest generalizing runs best with
  | nil =>
    rw [takeLeast.go] at hgo
    cases hgo
    rwa [List.append_nil]
  | cons run rest ih =>
    rw [List.append_cons] at hP ⊢
    cases run with
    | nil =>
      rw [takeLeast.go] at hgo
      exact ih hP hl.snoc_nil (by rwa [List.length_append])
    | cons x tail =>
      have hx : P x.1 := hP x (by simp)
      cases hl with
      | none hnil =>
        rw [takeLeast.go] at hgo
        refine ih hP ?_ (by rw [List.length_append]; exact hgo)
        show Leader compare (runs ++ (x :: tail) :: []) (some (runs.length, x))
        refine .some (fun run hr y hy => ?_) (by simp)
        rw [hnil run hr] at hy
        cases hy
      | @some y rest' before after hbefore hafter =>
        have hy : P y.1 := hP y (by simp)
        have hfront {run : List (κ × α)} {z : κ × α} (hr : run ∈ before ∨ run ∈ after)
            (hz : z ∈ run.head?) : P z.1 :=
          hP z (List.mem_flatten.mpr ⟨run, by rcases hr with hr | hr <;> simp [hr],
            List.mem_of_mem_head? hz⟩)
        rw [takeLeast.go] at hgo
        cases hc : compare x.1 y.1 with
        | error e => simp [hc] at hgo
        | ok o =>
          cases o with
          | lt =>
            simp only [hc] at hgo
            refine ih hP ?_ (by rw [List.length_append]; exact hgo)
            show Leader compare ((before ++ (y :: rest') :: after) ++ (x :: tail) :: []) (some (_, x))
            refine .some (fun run hr z hz => ?_) (by simp)
            rcases List.mem_append.mp hr with hr | hr
            · have hz' := hfront (.inl hr) hz
              exact h.lt_of_lt_of_notAfter hx hy hz' hc (.of_lt (hbefore run hr z hz))
            · obtain rfl | hr := List.mem_cons.mp hr
              · cases hz
                exact hc
              · exact h.lt_of_lt_of_notAfter hx hy (hfront (.inr hr) hz) hc (hafter run hr z hz)
          | eq | gt =>
            simp only [hc] at hgo
            refine ih hP ?_ (by rw [List.length_append]; exact hgo)
            rw [List.append_assoc, List.cons_append]
            refine .some hbefore fun run hr z hz => ?_
            rcases List.mem_append.mp hr with hr | hr
            · exact hafter run hr z hz
            · rw [List.mem_singleton.mp hr] at hz
              cases hz
              exact ⟨_, h.swap hx hy hc, rfl⟩

theorem exists_go {rest : List (List (κ × α))} (best : Option (Nat × (κ × α))) (place : Nat)
    (hbest : ∀ y ∈ best, ∀ run ∈ rest, ∀ x ∈ run, Comparable compare x.1 y.2.1)
    (hrest : rest.Pairwise fun run later => ∀ y ∈ run, ∀ x ∈ later, Comparable compare x.1 y.1) :
    ∃ found, takeLeast.go compare best place rest = .ok found := by
  induction rest generalizing best place with
  | nil => exact ⟨best, rfl⟩
  | cons run rest ih =>
    obtain ⟨hrun, hlater⟩ := List.pairwise_cons.mp hrest
    have hkeep : ∀ y ∈ best, ∀ run ∈ rest, ∀ x ∈ run, Comparable compare x.1 y.2.1 :=
      fun y hy later hl => hbest y hy later (List.mem_cons_of_mem _ hl)
    cases run with
    | nil => exact ih best (place + 1) hkeep hlater
    | cons x tail =>
      have hnew : ∀ y ∈ some (place, x), ∀ run ∈ rest, ∀ z ∈ run, Comparable compare z.1 y.2.1 := by
        rintro _ ⟨⟩ later hl z hz
        exact hrun later hl x List.mem_cons_self z hz
      cases best with
      | none => exact ih _ (place + 1) hnew hlater
      | some y =>
        obtain ⟨o, ho⟩ := hbest y rfl (x :: tail) List.mem_cons_self x List.mem_cons_self
        rw [takeLeast.go]
        simp only [ho]
        cases o with
        | lt => exact ih _ (place + 1) hnew hlater
        | eq | gt => exact ih _ (place + 1) hkeep hlater

theorem takeLeast_eq (runs : List (List (κ × α))) :
    takeLeast compare runs =
      (takeLeast.go compare none 0 runs).map
        (Option.map fun found => (found.2, runs.modify found.1 (·.drop 1))) := by
  unfold takeLeast
  split
  · rfl
  · cases takeLeast.go compare none 0 runs with
    | error e => rfl
    | ok found => cases found <;> rfl

theorem modify_length_append {β : Type} (f : β → β) (before : List β) (b : β) (after : List β) :
    (before ++ b :: after).modify before.length f = before ++ f b :: after := by
  induction before with
  | nil => rfl
  | cons c before ih => simp [ih]

/-- The least front and the runs without it. -/
theorem takeLeast_ok (h : Coherent compare P) {runs : List (List (κ × α))}
    (hP : ∀ r ∈ runs.flatten, P r.1) {found : Option ((κ × α) × List (List (κ × α)))}
    (ht : takeLeast compare runs = .ok found) :
    (found = none ∧ runs.flatten = []) ∨ ∃ x tail before after,
      runs = before ++ (x :: tail) :: after ∧ found = some (x, before ++ tail :: after) ∧
        (∀ run ∈ before, ∀ y ∈ run.head?, compare x.1 y.1 = .ok .lt) ∧
        ∀ run ∈ after, ∀ y ∈ run.head?, NotAfter compare x.1 y.1 := by
  rw [takeLeast_eq] at ht
  cases hgo : takeLeast.go compare none 0 runs with
  | error e => rw [hgo] at ht; cases ht
  | ok best =>
    rw [hgo] at ht
    cases ht
    have hl : Leader compare ([] ++ runs) best := leader_go h hP (.none (by simp)) hgo
    rw [List.nil_append] at hl
    cases hl with
    | none hnil => exact .inl ⟨rfl, List.flatten_eq_nil_iff.mpr hnil⟩
    | @some x tail before after hbefore hafter =>
      exact .inr ⟨x, tail, before, after, rfl, by simp [modify_length_append], hbefore, hafter⟩

end

/-! ## Merging -/

section
variable {P : κ → Prop} (h : Coherent compare P) {runs : List (List (κ × α))}

/-- All runs are sorted. -/
def SortedRuns (compare : κ → κ → Except ε Ordering) (runs : List (List (κ × α))) : Prop :=
  ∀ run ∈ runs, run.Pairwise fun a b => NotAfter compare a.1 b.1

theorem exists_takeLeast (h : Coherent compare P) (hP : ∀ r ∈ runs.flatten, P r.1)
    (hc : runs.flatten.Pairwise fun a b => Comparable compare a.1 b.1) :
    ∃ found, takeLeast compare runs = .ok found := by
  have hlists := (List.pairwise_flatten.mp hc).2.imp_of_mem fun {run later} hr hl hcomp y hy x hx =>
    h.comparable_symm (hP y (List.mem_flatten_of_mem hr hy)) (hP x (List.mem_flatten_of_mem hl hx))
      (hcomp y hy x hx)
  obtain ⟨found, hgo⟩ := exists_go none 0 (by simp) hlists
  exact ⟨_, by rw [takeLeast_eq, hgo]; rfl⟩

/-- The record that is taken from sorted runs is less than all records of the runs before its own, and
not greater than any other. -/
theorem least_of_takeLeast (h : Coherent compare P) (hP : ∀ r ∈ runs.flatten, P r.1)
    (hruns : SortedRuns compare runs) {x : κ × α} {rest : List (List (κ × α))}
    (ht : takeLeast compare runs = .ok (some (x, rest))) :
    ∃ tail before after, runs = before ++ (x :: tail) :: after ∧ rest = before ++ tail :: after ∧
      (∀ y ∈ before.flatten, compare x.1 y.1 = .ok .lt) ∧
      ∀ y ∈ rest.flatten, NotAfter compare x.1 y.1 := by
  rcases takeLeast_ok h hP ht with ⟨hnone, -⟩ | ⟨x, tail, before, after, rfl, hfound, hbefore, hafter⟩
  · cases hnone
  cases hfound
  have hx : P x.1 := hP x (by simp)
  have hall {run : List (κ × α)} (hr : run ∈ before ∨ run ∈ after) {y : κ × α} (hy : y ∈ run) :
      ∃ front, P front.1 ∧ P y.1 ∧ front ∈ run.head? ∧ (front = y ∨ NotAfter compare front.1 y.1) := by
    have hmem : run ∈ before ++ (x :: tail) :: after := by rcases hr with hr | hr <;> simp [hr]
    have hsorted := hruns run hmem
    cases run with
    | nil => cases hy
    | cons front run =>
      refine ⟨front, hP _ (List.mem_flatten_of_mem hmem List.mem_cons_self),
        hP _ (List.mem_flatten_of_mem hmem hy), rfl, ?_⟩
      obtain rfl | hy := List.mem_cons.mp hy
      · exact .inl rfl
      · exact .inr (List.rel_of_pairwise_cons hsorted hy)
  have hless : ∀ y ∈ before.flatten, compare x.1 y.1 = .ok .lt := by
    intro y hy
    obtain ⟨run, hr, hy⟩ := List.mem_flatten.mp hy
    obtain ⟨front, hPf, hPy, hfront, rfl | hle⟩ := hall (.inl hr) hy
    · exact hbefore run hr front hfront
    · exact h.lt_of_lt_of_notAfter hx hPf hPy (hbefore run hr front hfront) hle
  refine ⟨tail, before, after, rfl, rfl, hless, fun y hy => ?_⟩
  obtain ⟨run, hr, hyr⟩ := List.mem_flatten.mp hy
  rcases List.mem_append.mp hr with hr | hr
  · exact .of_lt (hless y (List.mem_flatten_of_mem hr hyr))
  · obtain rfl | hr := List.mem_cons.mp hr
    · exact List.rel_of_pairwise_cons (hruns (x :: run) (by simp)) hyr
    · obtain ⟨front, hPf, hPy, hfront, rfl | hle⟩ := hall (.inr hr) hyr
      · exact hafter run hr front hfront
      · exact h.trans hx hPf hPy (hafter run hr front hfront) hle

theorem SortedRuns.of_taken {x : κ × α} {tail : List (κ × α)} {before after : List (List (κ × α))}
    (hruns : SortedRuns compare (before ++ (x :: tail) :: after)) :
    SortedRuns compare (before ++ tail :: after) := by
  intro run hr
  rcases List.mem_append.mp hr with hr | hr
  · exact hruns run (by simp [hr])
  · obtain rfl | hr := List.mem_cons.mp hr
    · exact (hruns (x :: run) (by simp)).of_cons
    · exact hruns run (by simp [hr])

theorem flatten_taken_perm {β : Type} (x : β) (tail : List β) (before after : List (List β)) :
    (x :: (before ++ tail :: after).flatten).Perm (before ++ (x :: tail) :: after).flatten := by
  simp only [List.flatten_append, List.flatten_cons, List.cons_append]
  exact List.perm_middle.symm

theorem flatten_taken_sublist {β : Type} (x : β) (tail : List β) (before after : List (List β)) :
    (before ++ tail :: after).flatten.Sublist (before ++ (x :: tail) :: after).flatten := by
  simp only [List.flatten_append, List.flatten_cons, List.cons_append]
  exact (List.sublist_cons_self x _).append_left _

include h in
theorem exists_mergeRuns (steps : Nat) (hP : ∀ r ∈ runs.flatten, P r.1)
    (hruns : SortedRuns compare runs)
    (hc : runs.flatten.Pairwise fun a b => Comparable compare a.1 b.1) :
    ∃ merged, mergeRuns compare steps runs = .ok merged := by
  induction steps generalizing runs with
  | zero => exact ⟨[], rfl⟩
  | succ steps ih =>
    obtain ⟨found, ht⟩ := exists_takeLeast h hP hc
    rw [mergeRuns, ht]
    cases found with
    | none => exact ⟨[], rfl⟩
    | some found =>
      obtain ⟨x, rest⟩ := found
      obtain ⟨tail, before, after, rfl, rfl, -, -⟩ := least_of_takeLeast h hP hruns ht
      have hsub := flatten_taken_sublist x tail before after
      obtain ⟨merged, hm⟩ := ih (fun r hr => hP r (hsub.subset hr)) hruns.of_taken (hc.sublist hsub)
      exact ⟨x.2 :: merged, by simp only [hm]⟩

include h in
/-- A merge without a failure holds all records in order, and keeps the order of every class. -/
theorem mergeRuns_spec {steps : Nat} (hsteps : runs.flatten.length ≤ steps)
    (hP : ∀ r ∈ runs.flatten, P r.1) (hruns : SortedRuns compare runs) {merged : List α}
    (hm : mergeRuns compare steps runs = .ok merged) :
    ∃ sorted : List (κ × α), sorted.map (·.2) = merged ∧ sorted.Perm runs.flatten ∧
      (sorted.Pairwise fun a b => NotAfter compare a.1 b.1) ∧
      ∀ k, P k → sorted.filter (fun s => level compare s.1 k) =
        runs.flatten.filter fun s => level compare s.1 k := by
  induction steps generalizing runs merged with
  | zero =>
    have hnil := List.length_eq_zero_iff.mp (Nat.le_zero.mp hsteps)
    cases hm
    rw [hnil]
    exact ⟨[], rfl, .refl _, .nil, fun _ _ => rfl⟩
  | succ steps ih =>
    rw [mergeRuns] at hm
    cases ht : takeLeast compare runs with
    | error e => simp [ht] at hm
    | ok found =>
      cases found with
      | none =>
        obtain ⟨-, hnil⟩ | ⟨x, tail, before, after, -, hfound, -, -⟩ := takeLeast_ok h hP ht
        · simp only [ht] at hm
          cases hm
          rw [hnil]
          exact ⟨[], rfl, .refl _, .nil, fun _ _ => rfl⟩
        · cases hfound
      | some found =>
        obtain ⟨x, rest⟩ := found
        obtain ⟨tail, before, after, rfl, rfl, hless, hle⟩ := least_of_takeLeast h hP hruns ht
        have hperm := flatten_taken_perm x tail before after
        simp only [ht] at hm
        cases hrest : mergeRuns compare steps (before ++ tail :: after) with
        | error e => simp [hrest] at hm
        | ok later =>
          simp only [hrest] at hm
          cases hm
          obtain ⟨sorted, rfl, hsorted, ho, hstable⟩ := ih
            (by simpa using hperm.length_eq.trans_le hsteps)
            (fun r hr => hP r (hperm.mem_iff.mp (List.mem_cons_of_mem _ hr))) hruns.of_taken hrest
          refine ⟨x :: sorted, rfl, (hsorted.cons x).trans hperm, List.pairwise_cons.mpr
            ⟨fun y hy => hle y (hsorted.mem_iff.mp hy), ho⟩, fun k hk => ?_⟩
          rw [List.filter_cons, hstable k hk]
          simp only [List.flatten_append, List.flatten_cons, List.filter_append, List.cons_append,
            List.filter_cons]
          cases hxk : level compare x.1 k with
          | false => rfl
          | true =>
            -- The runs before that of `x` hold greater records only, none of its class.
            have hnone : before.flatten.filter (fun s => level compare s.1 k) = [] := by
              refine List.filter_eq_nil_iff.mpr fun y hy hyk => ?_
              have hPx : P x.1 := hP x (by simp)
              have hPy : P y.1 := hP y (by simp only [List.flatten_append, List.mem_append]; exact .inl hy)
              have heq := h.level_trans hPx hPy hk (level_iff.mp hxk) (level_iff.mp hyk)
              cases (hless y hy).symm.trans heq
            rw [hnone]
            rfl

end

/-! ## Partitions -/

section
variable {P : κ → Prop} (h : Coherent compare P)

/-- What the runs of partitions are, if all are sorted without a failure. -/
theorem runs_spec (h : Coherent compare P) {partitions runs : List (List (κ × α))}
    (hP : ∀ r ∈ partitions.flatten, P r.1) (hs : partitions.mapM (sortRun compare) = .ok runs) :
    SortedRuns compare runs ∧ runs.flatten.Perm partitions.flatten ∧
      ∀ k, P k → runs.flatten.filter (fun s => level compare s.1 k) =
        partitions.flatten.filter fun s => level compare s.1 k := by
  induction partitions generalizing runs with
  | nil =>
    cases hs
    exact ⟨fun _ hr => (nomatch hr), .refl _, fun _ _ => rfl⟩
  | cons partition partitions ih =>
    rw [List.mapM_cons] at hs
    cases hrun : sortRun compare partition with
    | error e => rw [hrun] at hs; cases hs
    | ok run =>
      cases hrest : partitions.mapM (sortRun compare) with
      | error e => rw [hrun, hrest] at hs; cases hs
      | ok rest =>
        rw [hrun, hrest] at hs
        cases hs
        have hpartition : ∀ r ∈ partition, P r.1 := fun r hr => hP r (by simp [hr])
        obtain ⟨hsorted, hperm, hstable⟩ :=
          ih (fun r hr => hP r (by rw [List.flatten_cons]; exact List.mem_append_right _ hr)) hrest
        have hstably := stablySorts_of_sortRun h hpartition hrun
        refine ⟨?_, hstably.perm.append hperm, fun k hk => ?_⟩
        · intro r hr
          obtain rfl | hr := List.mem_cons.mp hr
          · exact hstably.ordered
          · exact hsorted r hr
        · rw [List.flatten_cons, List.filter_append, filter_sortRun h hpartition hrun hk,
            hstable k hk, List.flatten_cons, List.filter_append]

theorem exists_runs (h : Coherent compare P) {partitions : List (List (κ × α))}
    (hP : ∀ r ∈ partitions.flatten, P r.1)
    (hc : partitions.flatten.Pairwise fun a b => Comparable compare a.1 b.1) :
    ∃ runs, partitions.mapM (sortRun compare) = .ok runs := by
  induction partitions with
  | nil => exact ⟨[], rfl⟩
  | cons partition partitions ih =>
    rw [List.flatten_cons] at hP hc
    obtain ⟨hpartition, hpartitions, -⟩ := List.pairwise_append.mp hc
    obtain ⟨run, hrun⟩ :=
      (exists_sortRun_iff h fun r hr => hP r (List.mem_append_left _ hr)).mpr hpartition
    obtain ⟨runs, hruns⟩ := ih (fun r hr => hP r (List.mem_append_right _ hr)) hpartitions
    exact ⟨run :: runs, by rw [List.mapM_cons, hrun, hruns]; rfl⟩

end

namespace Collection

variable {P : κ → Prop} (h : Coherent compare P) {c : Collection (κ × α)}
  (hP : ∀ r ∈ c.records, P r.1)

theorem sortKeyed_ok_iff {d : Collection α} :
    c.sortKeyed compare = .ok d ↔ ∃ runs merged, c.partitions.mapM (sortRun compare) = .ok runs ∧
      mergeRuns compare c.count runs = .ok merged ∧ parallelize merged c.numPartitions = d := by
  unfold sortKeyed
  cases c.partitions.mapM (sortRun compare) with
  | error e => simp [bind, Except.bind]
  | ok runs =>
    cases hm : mergeRuns compare c.count runs <;> simp [bind, Except.bind, pure, Except.pure, hm]

include h hP

/-- Sorting partitions and merging them gives the stable sort of all records. -/
theorem stablySorts_of_sortKeyed {d : Collection α} (hs : c.sortKeyed compare = .ok d) :
    ∃ sorted, StablySorts compare c.records sorted ∧ d.records = sorted.map (·.2) := by
  obtain ⟨runs, merged, hruns, hm, rfl⟩ := sortKeyed_ok_iff.mp hs
  obtain ⟨hsorted, hperm, hstable⟩ := runs_spec h hP hruns
  obtain ⟨sorted, rfl, hp, ho, hst⟩ := mergeRuns_spec h
    (by rw [count_eq, records]; exact hperm.length_eq.le)
    (fun r hr => hP r (hperm.mem_iff.mp hr)) hsorted hm
  refine ⟨sorted, ⟨hp.trans hperm, ho, fun r hr => ?_⟩, records_parallelize _ _⟩
  rw [hst _ (hP r hr), hstable _ (hP r hr), records]

/-- Sorting partitions fails exactly if two records of the collection do not compare. -/
theorem exists_sortKeyed_iff :
    (∃ d, c.sortKeyed compare = .ok d) ↔
      c.records.Pairwise fun a b => Comparable compare a.1 b.1 := by
  constructor
  · rintro ⟨d, hs⟩
    obtain ⟨sorted, hsorted, -⟩ := stablySorts_of_sortKeyed h hP hs
    exact hsorted.comparable h hP
  · intro hc
    obtain ⟨runs, hruns⟩ := exists_runs h hP hc
    obtain ⟨hsorted, hperm, -⟩ := runs_spec h hP hruns
    have hrecords : ∀ r ∈ runs.flatten, P r.1 := fun r hr => hP r (hperm.mem_iff.mp hr)
    have hcomparable := h.pairwise_perm hP hperm.symm hc
    obtain ⟨merged, hm⟩ := exists_mergeRuns h c.count hrecords hsorted hcomparable
    exact ⟨_, sortKeyed_ok_iff.mpr ⟨runs, merged, hruns, hm, rfl⟩⟩

end Collection

end HybridQuery
