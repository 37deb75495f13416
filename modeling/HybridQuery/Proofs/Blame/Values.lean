import HybridQuery.Proofs.Blame.Relation
import HybridQuery.Proofs.Grouping
import HybridQuery.Proofs.Ordering.Runs
import HybridQuery.Proofs.Recutting.Computations

/-!
# Values that stand in a set of positions

What is made of items has no functions in it that were in none of them, and faults of values have no
position yet.

* `Item.StandsIn.lift`, `Item.standsIn_of_lift`: standing in a set, as a relation on functions that is
  lifted to items; what is known of lifted items applies.
* `Frame.StandsIn.select` and its like: the parts of values.
* `Context.StandsIn.lookup`, `Context.StandsIn.snapshot`: what a context shows.
* `Catalogue.promoteValue_standsIn`, `Invocation.of_standsIn`: promotion and calls.
-/

namespace HybridQuery

variable {S : Set SourcePosition}

/-! ## Items -/

/-- A function that stands in the set, beside itself. -/
def FunctionOf.Stays (S : Set SourcePosition) (f g : FunctionItem) : Prop := f = g ∧ g.StandsIn S

namespace Item

variable {i j : Item}

theorem StandsIn.lift (h : i.StandsIn S) : Lift (FunctionOf.Stays S) i i := by
  induction h with
  | atomic h => exact .atomic h
  | object _ ih => exact .object (List.forall₂_same.mpr fun p hp => .mk p.1 (ih p hp))
  | array _ ih => exact .array (List.forall₂_same.mpr ih)
  | function hbody hclosure => exact .function ⟨rfl, hbody, hclosure⟩

mutual
theorem standsIn_of_lift {i j : Item} (h : Lift (FunctionOf.Stays S) i j) : j.StandsIn S := by
  cases h with
  | atomic h => exact .atomic h
  | object h => exact .object (pairs_standIn_of_lift h)
  | array h => exact .array (members_standIn_of_lift h)
  | function h => exact standsIn_function.mpr h.2
termination_by sizeOf j

theorem members_standIn_of_lift {xs ys : List Item} (h : List.Forall₂ (Lift (FunctionOf.Stays S)) xs ys) :
    ItemsStandIn S ys := by
  cases h with
  | nil => exact List.forall_mem_nil _
  | cons h hr => exact List.forall_mem_cons.mpr ⟨standsIn_of_lift h, members_standIn_of_lift hr⟩
termination_by sizeOf ys

theorem pairs_standIn_of_lift {ps qs : List (String × Item)}
    (h : List.Forall₂ (Keyed (Lift (FunctionOf.Stays S))) ps qs) : ∀ q ∈ qs, q.2.StandsIn S := by
  cases h with
  | nil => exact List.forall_mem_nil _
  | cons h hr =>
    cases h with
    | mk key h => exact List.forall_mem_cons.mpr ⟨standsIn_of_lift h, pairs_standIn_of_lift hr⟩
termination_by sizeOf qs
end

theorem standsIn_ofJson (json : Json) : (ofJson json).StandsIn S := standsIn_of_lift (lift_ofJson json)

theorem StandsIn.member? (h : i.StandsIn S) (key : String) : ∀ j ∈ i.member? key, j.StandsIn S := by
  intro j hj
  have := h.lift.member? key
  rw [hj] at this
  cases this with
  | some h => exact standsIn_of_lift h

theorem StandsIn.members (h : i.StandsIn S) : ItemsStandIn S i.members :=
  members_standIn_of_lift h.lift.members

end Item

theorem PlanEvaluator.memberAt_standsIn {i : Item} (h : i.StandsIn S) (index : Int64) :
    ∀ j ∈ memberAt i index, j.StandsIn S := by
  intro j hj
  unfold memberAt at hj
  split at hj
  · exact h.members j (List.mem_of_getElem? hj)
  · cases hj

/-! ## Sequences -/

namespace Sequence

variable {s : Sequence} (h : ItemsStandIn S s)
include h

theorem lift_of_standIn : Sequence.Lift (FunctionOf.Stays S) s s :=
  List.forall₂_same.mpr fun i hi => (h i hi).lift

theorem asItem_standsIn : s.asItem.StandsIn S :=
  Item.standsIn_of_lift (Sequence.asItem_lift (lift_of_standIn h))

theorem intersection_standsIn : s.intersection.StandsIn S :=
  Item.standsIn_of_lift (Sequence.intersection_lift (lift_of_standIn h))

/-- Of several items, the number is blamed on the plan that yields them. -/
theorem optional_standsIn (what : String) {position : SourcePosition} (hp : position ∈ S) :
    EndsIn (fun o => ∀ i ∈ o, Item.StandsIn S i) (EngineError.BlamesOnly S)
      (s.optional what position) := by
  match s, h with
  | [], _ => exact .ok nofun
  | [i], h =>
    refine .ok fun j hj => ?_
    cases hj
    exact h i List.mem_cons_self
  | i :: j :: rest, _ => exact ((EndsIn.fail _).locate hp).only

end Sequence

/-! ## Faults of items -/

theorem Item.truth_endsIn (i : Item) : EndsIn (fun _ => True) (EngineError.BlamesOnly S) i.truth := by
  cases i <;> first | exact .ok trivial | exact .fail _

theorem Sequence.truth_endsIn (s : Sequence) :
    EndsIn (fun _ => True) (EngineError.BlamesOnly S) s.truth := by
  match s with
  | [] => exact .ok trivial
  | [i] => exact i.truth_endsIn
  | i :: j :: rest =>
    rw [truth.eq_3 i (j :: rest) (List.cons_ne_nil j rest)]
    split
    · exact .fail _
    · exact .ok trivial

theorem Item.compare_endsIn (a b : Item) :
    EndsIn (fun _ => True) (EngineError.BlamesOnly S) (a.compare b) := by
  unfold compare
  split_ifs
  iterate 4 exact .ok trivial
  cases compareAlike? a b with
  | some ordering => exact .ok trivial
  | none => exact .fail _

theorem Item.integerOf_endsIn (n : Int) (fault : Fault) :
    EndsIn (Item.StandsIn S) (EngineError.BlamesOnly S) (integerOf n fault) := by
  unfold integerOf
  split
  · exact .ok (.atomic rfl)
  · exact .fail _

theorem Item.decimalArithmetic_endsIn (op : ArithmeticOp) (a b : Decimal) :
    EndsIn (Item.StandsIn S) (EngineError.BlamesOnly S) (decimalArithmetic op a b) := by
  unfold decimalArithmetic
  cases op with
  | add | subtract | multiply => exact .ok (.atomic rfl)
  | divide | modulo =>
    dsimp only
    split
    · exact .fail _
    · exact .ok (.atomic rfl)
  | integerDivide =>
    dsimp only
    split
    · exact .fail _
    · exact integerOf_endsIn _ _

theorem Item.integerArithmetic_endsIn (op : ArithmeticOp) (a b : Int) :
    EndsIn (Item.StandsIn S) (EngineError.BlamesOnly S) (integerArithmetic op a b) := by
  unfold integerArithmetic
  cases op with
  | add | subtract | multiply => exact integerOf_endsIn _ _
  | divide => exact decimalArithmetic_endsIn _ _ _
  | integerDivide =>
    dsimp only
    split
    · exact .fail _
    · exact integerOf_endsIn _ _
  | modulo =>
    dsimp only
    split_ifs
    · exact .fail _
    · exact .fail _
    · exact integerOf_endsIn _ _

theorem Item.doubleArithmetic_endsIn (op : ArithmeticOp) (a b : Float) :
    EndsIn (Item.StandsIn S) (EngineError.BlamesOnly S) (doubleArithmetic op a b) := by
  unfold doubleArithmetic
  cases op with
  | integerDivide =>
    dsimp only
    split
    · split
      · exact integerOf_endsIn _ _
      · exact .fail _
    · exact .fail _
  | _ => exact .ok (.atomic rfl)

theorem Item.arithmetic_endsIn (op : ArithmeticOp) (a b : Item) :
    EndsIn (Item.StandsIn S) (EngineError.BlamesOnly S) (arithmetic op a b) := by
  unfold arithmetic
  split_ifs
  · exact .fail _
  · exact .fail _
  · split
    · exact integerArithmetic_endsIn op _ _
    · split
      · exact decimalArithmetic_endsIn op _ _
      · exact doubleArithmetic_endsIn op _ _

theorem Sequence.sumIntegers_endsIn (total : Int) (s : Sequence) :
    EndsIn (Item.StandsIn S) (EngineError.BlamesOnly S) (sumIntegers total s) := by
  induction s generalizing total with
  | nil => exact Item.integerOf_endsIn _ _
  | cons i s ih =>
    rw [sumIntegers]
    split
    · exact ih _
    · exact .fail _

theorem Sequence.sum_endsIn (s : Sequence) :
    EndsIn (Item.StandsIn S) (EngineError.BlamesOnly S) s.sum := by
  unfold sum
  split
  · exact .fail _
  · split_ifs
    · exact sumIntegers_endsIn 0 s
    · exact .ok (.atomic rfl)
    · exact .ok (.atomic rfl)

/-! ## Sorting and grouping -/

section
variable {ε κ α : Type} {compare : κ → κ → Except ε Ordering} {E : ε → Prop}
  (hcompare : ∀ a b e, compare a b = .error e → E e)
include hcompare

theorem insertLast_blames (x : κ × α) (l : List (κ × α)) {failure : Option ε}
    (hf : ∀ e ∈ failure, E e) : ∀ e ∈ (insertLast compare x l failure).2, E e := by
  induction l with
  | nil => exact hf
  | cons y l ih =>
    unfold insertLast
    split
    · exact ih
    · exact hf
    · next he =>
      intro e h
      cases failure with
      | some e' => exact hf e h
      | none =>
        cases h
        exact hcompare _ _ _ he

/-- A sort fails with a failure of the comparison, and gives the records that it is given. -/
theorem sortRun_endsIn (records : List (κ × α)) :
    EndsIn (fun sorted => ∀ r ∈ sorted, r ∈ records) E (sortRun compare records) := by
  rw [sortRun_eq]
  have hfailure : ∀ e ∈ (insertAll compare records).2, E e := by
    induction records using List.reverseRecOn with
    | nil => exact nofun
    | append_singleton records x ih =>
      rw [insertAll_append]
      exact insertLast_blames hcompare x _ ih
  split
  · next he => exact .error (hfailure _ he)
  · exact .ok fun r hr => (insertAll_perm records).mem_iff.mp (List.mem_reverse.mp hr)

theorem go_endsIn {P : κ × α → Prop} {best : Option (Nat × (κ × α))} (hbest : ∀ x ∈ best, P x.2)
    (index : Nat) {runs : List (List (κ × α))} (hruns : ∀ run ∈ runs, ∀ x ∈ run, P x) :
    EndsIn (fun best : Option (Nat × (κ × α)) => ∀ x ∈ best, P x.2) E
      (takeLeast.go compare best index runs) := by
  induction runs generalizing best index with
  | nil => exact .ok hbest
  | cons run runs ih =>
    obtain ⟨hrun, hrest⟩ := List.forall_mem_cons.mp hruns
    cases run with
    | nil => exact ih hbest _ hrest
    | cons x tail =>
      have hnew : ∀ y ∈ some (index, x), P y.2 := by
        rintro _ ⟨⟩
        exact hrun x List.mem_cons_self
      cases best with
      | none => exact ih hnew _ hrest
      | some y =>
        rw [takeLeast.go]
        split
        · exact ih hnew _ hrest
        · exact ih hbest _ hrest
        · next he => exact .error (hcompare _ _ _ he)

theorem takeLeast_endsIn {P : κ × α → Prop} {runs : List (List (κ × α))}
    (hruns : ∀ run ∈ runs, ∀ x ∈ run, P x) :
    EndsIn (fun found : Option ((κ × α) × List (List (κ × α))) =>
      ∀ x ∈ found, P x.1 ∧ ∀ run ∈ x.2, ∀ y ∈ run, P y) E (takeLeast compare runs) := by
  rw [takeLeast_eq]
  have hnone : ∀ x ∈ (none : Option (Nat × (κ × α))), P x.2 := nofun
  refine (go_endsIn hcompare hnone 0 hruns).map fun best h x hx => ?_
  obtain ⟨found, rfl, rfl⟩ := Option.map_eq_some_iff.mp hx
  refine ⟨h found rfl, fun run hrun y hy => ?_⟩
  obtain ⟨place, hplace, rfl⟩ := List.mem_iff_getElem.mp hrun
  rw [List.getElem_modify] at hy
  split at hy
  · exact hruns _ (List.getElem_mem _) y (List.mem_of_mem_drop hy)
  · exact hruns _ (List.getElem_mem _) y hy

theorem mergeRuns_endsIn {P : κ × α → Prop} (steps : Nat) {runs : List (List (κ × α))}
    (hruns : ∀ run ∈ runs, ∀ x ∈ run, P x) :
    EndsIn (fun merged => ∀ a ∈ merged, ∃ k, P (k, a)) E (mergeRuns compare steps runs) := by
  induction steps generalizing runs with
  | zero => exact .ok (List.forall_mem_nil _)
  | succ steps ih =>
    have hleast := takeLeast_endsIn hcompare hruns
    rw [mergeRuns]
    generalize takeLeast compare runs = found at hleast
    cases hleast with
    | error h => exact .error h
    | @ok found h =>
      cases found with
      | none => exact .ok (List.forall_mem_nil _)
      | some found =>
        obtain ⟨hx, hrest⟩ := h found rfl
        have hmerged := ih hrest
        dsimp only
        generalize mergeRuns compare steps found.2 = merged at hmerged
        cases hmerged with
        | error h => exact .error h
        | ok h => exact .ok (List.forall_mem_cons.mpr ⟨⟨found.1.1, hx⟩, h⟩)

theorem Collection.sortKeyed_endsIn (c : Collection (κ × α)) :
    EndsIn (fun d : Collection α => ∀ a ∈ d.records, ∃ k, (k, a) ∈ c.records) E (c.sortKeyed compare) := by
  refine EndsIn.bind (P := fun runs => ∀ run ∈ runs, ∀ x ∈ run, x ∈ c.records)
    (.listMapM fun partition hp => ?_) fun runs hruns => ?_
  · exact (sortRun_endsIn hcompare partition).mono
      (fun run h x hx => List.mem_flatten.mpr ⟨partition, hp, h x hx⟩) fun _ h => h
  · refine (mergeRuns_endsIn hcompare _ hruns).bind fun merged h => .ok ?_
    rwa [records_parallelize]

end
end HybridQuery
