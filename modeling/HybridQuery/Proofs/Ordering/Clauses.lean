import Mathlib.Order.Filter.Finite
import HybridQuery.Proofs.Collections
import HybridQuery.Proofs.Ordering.Atomics

/-!
# `order by` on the host and over partitions

The key of a tuple is a list of components, each empty or an atomic. Keys are compared component by
component; the comparison is coherent if the components are (`coherent_compareSortKeys`), whatever the
directions and wherever the empty sequence stands. Two keys have no order exactly if they clash: their
first components that are not equal do not compare.

* `SortKey.Clash`: where two keys reach items that do not compare.
* `ordered_over_partitions`: `order by` on the host and distributed fail alike, and sort alike.
-/

namespace HybridQuery

/-! ## Components -/

section
variable {κ ε : Type} {P : κ → Prop} {compare : κ → κ → Except ε Ordering}

/-- A comparison with its answers turned round if it is descending. -/
def directed (descending : Bool) (compare : κ → κ → Except ε Ordering) (a b : κ) :
    Except ε Ordering :=
  (fun o => if descending then o.swap else o) <$> compare a b

theorem directed_true_eq_ok_iff {a b : κ} {o : Ordering} :
    directed true compare a b = .ok o ↔ compare a b = .ok o.swap := by
  unfold directed
  cases compare a b with
  | error e => simp
  | ok o' => simp [Ordering.swap_eq_iff_eq_swap]

theorem directed_eq_ok_eq_iff {descending : Bool} {a b : κ} :
    directed descending compare a b = .ok .eq ↔ compare a b = .ok .eq := by
  unfold directed
  cases compare a b with
  | error e => simp
  | ok o => cases descending <;> cases o <;> simp

theorem comparable_directed_iff {descending : Bool} {a b : κ} :
    Comparable (directed descending compare) a b ↔ Comparable compare a b := by
  unfold Comparable directed
  cases compare a b <;> simp

theorem directed_false : directed false compare = compare := by
  funext a b
  unfold directed
  cases compare a b <;> rfl

theorem Coherent.directed (h : Coherent compare P) (descending : Bool) :
    Coherent (directed descending compare) P := by
  cases descending with
  | false => rwa [directed_false]
  | true =>
    have hflip {a b : κ} (ha : P a) (hb : P b) (hab : NotAfter (HybridQuery.directed true compare) a b) :
        NotAfter compare b a := by
      obtain ⟨o, ho, hle⟩ := hab
      have := h.swap ha hb (directed_true_eq_ok_iff.mp ho)
      rw [Ordering.swap_swap] at this
      exact ⟨o, this, hle⟩
    refine ⟨fun ha hb hab => ?_, fun ha hb hc hab hbc => ?_⟩
    · exact directed_true_eq_ok_iff.mpr (h.swap ha hb (directed_true_eq_ok_iff.mp hab))
    · obtain ⟨o, ho, hle⟩ := h.trans hc hb ha (hflip hb hc hbc) (hflip ha hb hab)
      exact ⟨o, directed_true_eq_ok_iff.mpr (h.swap hc ha ho), hle⟩

end

/-- A component that keys can be ordered by: empty, or an atomic that is no double. -/
def ExactComponent (component : Option Item) : Prop := ∀ i ∈ component, i.IsExactAtomic

theorem EngineResult.locate_eq_ok_iff {α : Type} {r : EngineResult α} {position : SourcePosition}
    {a : α} : r.locate position = .ok a ↔ r = .ok a := by
  cases r <;> simp [EngineResult.locate, Except.mapError]

section
variable (key : OrderKey Plan)

theorem compareComponents_some {a b : Item} {o : Ordering} :
    compareComponents key (some a) (some b) = .ok o ↔ Item.compare a b = .ok o :=
  EngineResult.locate_eq_ok_iff

theorem not_comparable_components_iff {a b : Option Item} (ha : ExactComponent a)
    (hb : ExactComponent b) :
    ¬ Comparable (compareComponents key) a b ↔ ∃ i j, a = some i ∧ b = some j ∧ i.Unordered j := by
  match a, b with
  | none, none => simp [Comparable, compareComponents]
  | none, some b => simp [Comparable, compareComponents]
  | some a, none => simp [Comparable, compareComponents]
  | some a, some b =>
    have hiff : Comparable (compareComponents key) (some a) (some b) ↔ Comparable Item.compare a b :=
      exists_congr fun _ => compareComponents_some key
    rw [hiff, Item.not_comparable_iff (ha a rfl) (hb b rfl)]
    simp

/-- The empty sequence has a place among the items, so that it keeps a comparison coherent. -/
theorem coherent_compareComponents : Coherent (compareComponents key) ExactComponent where
  swap := by
    intro a b o ha hb h
    match a, b with
    | none, none => cases h; rfl
    | none, some b => cases h; rfl
    | some a, none => cases h; rw [Ordering.swap_swap]; rfl
    | some a, some b =>
      rw [compareComponents_some] at h ⊢
      exact Item.coherent_compare.swap (ha a rfl) (hb b rfl) h
  trans := by
    intro a b c ha hb hc hab hbc
    match a, b, c with
    | none, none, _ => exact hbc
    | _, none, none => exact hab
    | none, some b, none => exact ⟨_, rfl, rfl⟩
    | none, some b, some c => exact hab
    | some a, some b, none => exact hbc
    | some a, none, some c =>
      obtain ⟨o, ho, hle⟩ := hab
      obtain ⟨o', ho', hle'⟩ := hbc
      cases ho
      cases ho'
      cases hkey : key.empty <;> simp [hkey, EmptyOrder.emptyFirst] at hle hle'
    | some a, some b, some c =>
      obtain ⟨o, ho, hle⟩ := hab
      obtain ⟨o', ho', hle'⟩ := hbc
      obtain ⟨o'', ho'', hle''⟩ := Item.coherent_compare.trans (ha a rfl) (hb b rfl) (hc c rfl)
        ⟨o, (compareComponents_some key).mp ho, hle⟩ ⟨o', (compareComponents_some key).mp ho', hle'⟩
      exact ⟨o'', (compareComponents_some key).mpr ho'', hle''⟩

end

/-! ## Keys -/

namespace SortKey

/-- A key with an exact component for each of the things to order by. -/
def IsExact (keys : List (OrderKey Plan)) (k : SortKey) : Prop :=
  List.Forall₂ (fun _ component => ExactComponent component) keys k

/-- Two keys with components that have no order, all components before them being equal. -/
inductive Clash : List (OrderKey Plan) → SortKey → SortKey → Prop
  | here {key : OrderKey Plan} {keys : List (OrderKey Plan)} {a b : Item} {as bs : SortKey}
      (h : Item.Unordered a b) : Clash (key :: keys) (some a :: as) (some b :: bs)
  | later {key : OrderKey Plan} {keys : List (OrderKey Plan)} {a b : Option Item} {as bs : SortKey}
      (h : compareComponents key a b = .ok .eq) (hr : Clash keys as bs) :
      Clash (key :: keys) (a :: as) (b :: bs)

end SortKey

section
variable {key : OrderKey Plan} {keys : List (OrderKey Plan)} {a b : Option Item} {as bs : SortKey}

/-- The first components decide, unless they are equal. -/
theorem compareSortKeys_cons_eq_ok_iff {o : Ordering} :
    compareSortKeys (key :: keys) (a :: as) (b :: bs) = .ok o ↔
      directed key.descending (compareComponents key) a b = .ok o ∧ o ≠ .eq ∨
        directed key.descending (compareComponents key) a b = .ok .eq ∧
          compareSortKeys keys as bs = .ok o := by
  rw [compareSortKeys, directed]
  cases compareComponents key a b with
  | error e => simp [bind, Except.bind]
  | ok o' =>
    simp only [bind, Except.bind, pure, Except.pure, Except.map_ok, Except.ok.injEq]
    generalize (if key.descending = true then o'.swap else o') = first
    cases first <;> cases o <;> simp

theorem notAfter_cons_iff :
    NotAfter (compareSortKeys (key :: keys)) (a :: as) (b :: bs) ↔
      directed key.descending (compareComponents key) a b = .ok .lt ∨
        directed key.descending (compareComponents key) a b = .ok .eq ∧
          NotAfter (compareSortKeys keys) as bs := by
  constructor
  · rintro ⟨o, ho, hle⟩
    rcases compareSortKeys_cons_eq_ok_iff.mp ho with ⟨hfirst, hne⟩ | ⟨hfirst, hrest⟩
    · cases o with
      | lt => exact .inl hfirst
      | eq => exact absurd rfl hne
      | gt => cases hle
    · exact .inr ⟨hfirst, o, hrest, hle⟩
  · rintro (hfirst | ⟨hfirst, o, hrest, hle⟩)
    · exact ⟨.lt, compareSortKeys_cons_eq_ok_iff.mpr (.inl ⟨hfirst, nofun⟩), rfl⟩
    · exact ⟨o, compareSortKeys_cons_eq_ok_iff.mpr (.inr ⟨hfirst, hrest⟩), hle⟩

end

/-- **The comparison of keys is coherent**, whatever their directions. -/
theorem coherent_compareSortKeys (keys : List (OrderKey Plan)) :
    Coherent (compareSortKeys keys) (SortKey.IsExact keys) := by
  induction keys with
  | nil =>
    refine ⟨fun _ _ h => ?_, fun _ _ _ _ _ => ?_⟩
    · cases h
      rfl
    · exact ⟨.eq, rfl, rfl⟩
  | cons key keys ih =>
    have hc := (coherent_compareComponents key).directed key.descending
    refine ⟨fun ha hb h => ?_, fun ha hb hc' hab hbc => ?_⟩
    · obtain _ | ⟨ha, has⟩ := ha
      obtain _ | ⟨hb, hbs⟩ := hb
      rcases compareSortKeys_cons_eq_ok_iff.mp h with ⟨hfirst, hne⟩ | ⟨hfirst, hrest⟩
      · exact compareSortKeys_cons_eq_ok_iff.mpr (.inl ⟨hc.swap ha hb hfirst, by
          simpa [Ordering.swap_eq_iff_eq_swap] using hne⟩)
      · exact compareSortKeys_cons_eq_ok_iff.mpr (.inr ⟨hc.swap ha hb hfirst, ih.swap has hbs hrest⟩)
    · obtain _ | ⟨ha, has⟩ := ha
      obtain _ | ⟨hb, hbs⟩ := hb
      obtain _ | ⟨hc', hcs⟩ := hc'
      rw [notAfter_cons_iff] at hab hbc ⊢
      rcases hab with hab | ⟨hab, hrest⟩
      · refine .inl (hc.lt_of_lt_of_notAfter ha hb hc' hab ?_)
        rcases hbc with hbc | ⟨hbc, -⟩
        · exact .of_lt hbc
        · exact ⟨_, hbc, rfl⟩
      · rcases hbc with hbc | ⟨hbc, hrest'⟩
        · exact .inl (hc.lt_of_notAfter_of_lt ha hb hc' ⟨_, hab, rfl⟩ hbc)
        · exact .inr ⟨hc.level_trans ha hc' hb hab (hc.swap hb hc' hbc), ih.trans has hbs hcs hrest hrest'⟩

/-- Keys have no order exactly if they clash. -/
theorem not_comparable_iff_clash {keys : List (OrderKey Plan)} {as bs : SortKey}
    (ha : SortKey.IsExact keys as) (hb : SortKey.IsExact keys bs) :
    ¬ Comparable (compareSortKeys keys) as bs ↔ SortKey.Clash keys as bs := by
  induction keys generalizing as bs with
  | nil => exact ⟨fun h => absurd ⟨.eq, by simp only [compareSortKeys]⟩ h, nofun⟩
  | cons key keys ih =>
    obtain _ | ⟨ha, has⟩ := ha
    obtain _ | ⟨hb, hbs⟩ := hb
    rename_i a as b bs
    constructor
    · intro h
      by_cases hfirst : Comparable (compareComponents key) a b
      · obtain ⟨o, ho⟩ := hfirst
        have heq : o = .eq := by
          by_contra hne
          refine h ⟨if key.descending then o.swap else o,
            compareSortKeys_cons_eq_ok_iff.mpr (.inl ⟨by simp [directed, ho], ?_⟩)⟩
          split
          · simpa [Ordering.swap_eq_iff_eq_swap] using hne
          · exact hne
        rw [heq] at ho
        refine .later ho ((ih has hbs).mp fun ⟨o', ho'⟩ => h ⟨o', ?_⟩)
        exact compareSortKeys_cons_eq_ok_iff.mpr (.inr ⟨directed_eq_ok_eq_iff.mpr ho, ho'⟩)
      · obtain ⟨i, j, rfl, rfl, hij⟩ := (not_comparable_components_iff key ha hb).mp hfirst
        exact .here hij
    · rintro hclash ⟨o, ho⟩
      cases hclash with
      | @here _ _ i j _ _ hij =>
        have hfirst : Comparable (directed key.descending (compareComponents key)) (some i)
            (some j) := by
          rcases compareSortKeys_cons_eq_ok_iff.mp ho with ⟨h, -⟩ | ⟨h, -⟩ <;> exact ⟨_, h⟩
        exact (not_comparable_components_iff key ha hb).mpr ⟨i, j, rfl, rfl, hij⟩
          (comparable_directed_iff.mp hfirst)
      | later heq hr =>
        rcases compareSortKeys_cons_eq_ok_iff.mp ho with ⟨h, hne⟩ | ⟨-, h⟩
        · cases (directed_eq_ok_eq_iff.mpr heq).symm.trans h
          exact hne rfl
        · exact (ih has hbs).mpr hr ⟨o, h⟩

/-! ## Tuples with their keys -/

section
variable {env : Environment} {context : Context} {keys : List (OrderKey Plan)}

/-- The tuples with their keys. -/
def keyedBy (keyOf : Tuple → SortKey) (tuples : List Tuple) : List (SortKey × Tuple) :=
  tuples.map fun t => (keyOf t, t)

theorem meant_sortKey (tuple : Tuple) :
    Meant env (fun depth => (Evaluator.ofDepth depth).plans.sortKey keys context tuple)
      fun depth => (Meaning.ofDepth depth).plans.sortKey keys context tuple :=
  .of_follows fun h => Tends.listMapM (fun key => h.plans.sortComponent (.of_unmarked rfl) key) keys

section
variable {depth : Nat}

theorem follows_plans (env : Environment) (depth : Nat) :
    PlanEvaluator.Follows (fun _ => []) (pure 0) True env
      (fun j => (Evaluator.ofDepth (depth + j)).plans) (Meaning.ofDepth depth).plans := by
  have h : PlanEvaluator.Follows _ _ _ env _ _ := (Evaluator.follows_within (fun _ => []) depth).plans
  rwa [Memory.ofDepth_marks] at h

/-- A key that is evaluated has as many components as there are things to order by. -/
theorem isExact_of_sortKey {tuple : Tuple} {k : SortKey}
    (h : ((Meaning.ofDepth depth).plans.sortKey keys context tuple).result env = .ok k)
    (hexact : ∀ i, some i ∈ k → i.IsExactAtomic) : SortKey.IsExact keys k := by
  have hsteady (key : OrderKey Plan) : ((Meaning.ofDepth depth).plans.sortComponent key
      (tuple.scope context)).Steady env :=
    ((follows_plans env depth).sortComponent (.of_unmarked rfl) key).1
  rw [PlanEvaluator.sortKey, Engine.result_listMapM hsteady] at h
  refine List.forall₂_iff_zip.mpr ⟨(length_of_mapM_ok h).symm, fun {key component} hmem i hi => ?_⟩
  cases hi
  exact hexact i (List.of_mem_zip hmem).2

theorem result_keyedTuple {tuple : Tuple} {k : SortKey}
    (h : ((Meaning.ofDepth depth).plans.sortKey keys context tuple).result env = .ok k) :
    ((Meaning.ofDepth depth).plans.keyedTuple keys context tuple).result env = .ok (k, tuple) := by
  rw [PlanEvaluator.keyedTuple, Engine.result_bind fun _ _ _ => rfl, h]
  rfl

variable {keyOf : Tuple → SortKey} {position : SourcePosition} {pulled distributed : Pipeline}

theorem mapM_keyedTuple {tuples : List Tuple}
    (hkeys : ∀ t ∈ tuples,
      ((Meaning.ofDepth depth).plans.sortKey keys context t).result env = .ok (keyOf t)) :
    (tuples.mapM fun t => ((Meaning.ofDepth depth).plans.keyedTuple keys context t).result env) =
      .ok (keyedBy keyOf tuples) :=
  mapM_eq_pure fun t ht => result_keyedTuple (hkeys t ht)

/-- Ordering on the host sorts the tuples as one run. -/
theorem result_orderBy_host {tuples : List Tuple}
    (hpulled : ((Meaning.ofDepth depth).feed env context pulled).result = .ok tuples)
    (hkeys : ∀ t ∈ tuples,
      ((Meaning.ofDepth depth).plans.sortKey keys context t).result env = .ok (keyOf t)) :
    ((Meaning.ofDepth (depth + 1)).feed env context
        (.clause .host position (.orderBy keys) pulled)).result =
      (EngineResult.locate (List.map (·.2) <$> sortRun (compareSortKeys keys) (keyedBy keyOf tuples))
        position).raised := by
  have hclause : ((Meaning.ofDepth (depth + 1)).feed env context
      (.clause .host position (.orderBy keys) pulled)).result =
      (((Meaning.ofDepth depth).clauseItems env context position pulled (.orderBy keys)).result).mapError
        (·.locate position) :=
    (Trace.result_ahead _).trans (Trace.result_locate _ position)
  rw [hclause, Meaning.clauseItems, Trace.result_attempt, Meaning.gathered,
    Trace.result_bind_attempt hpulled, mapM_keyedTuple hkeys]
  show Except.mapError _ (Trace.result (Engine.trace _ env)) = _
  rw [Trace.result_trace, Engine.result_bind fun _ _ _ => rfl, Engine.result_ofResult]
  cases sortRun (compareSortKeys keys) (keyedBy keyOf tuples) <;> rfl

/-- Ordering distributed tuples sorts the partitions and merges them. -/
theorem result_orderBy_rows {tuples : Collection Tuple}
    (hdistributed : ((Meaning.ofDepth depth).feedRows context distributed).result env = .ok tuples)
    (hkeys : ∀ t ∈ tuples.records,
      ((Meaning.ofDepth depth).plans.sortKey keys context t).result env = .ok (keyOf t)) :
    ∃ keyed : Collection (SortKey × Tuple), keyed.records = keyedBy keyOf tuples.records ∧
      ((Meaning.ofDepth (depth + 1)).feedRows context
          (.clause .rows position (.orderBy keys) distributed)).result env =
        (EngineResult.locate (keyed.sortKeyed (compareSortKeys keys)) position).raised := by
  have hsteady (t : Tuple) : ((Meaning.ofDepth depth).plans.keyedTuple keys context t).Steady env :=
    ((follows_plans env depth).keyedTuple keys t).1
  have hrecords := Collection.result_mapM hsteady tuples
  rw [mapM_keyedTuple hkeys] at hrecords
  cases hkeyed : Engine.result (tuples.mapM ((Meaning.ofDepth depth).plans.keyedTuple keys context))
      env with
  | error f => rw [hkeyed] at hrecords; cases hrecords
  | ok keyed =>
    rw [hkeyed] at hrecords
    refine ⟨keyed, Except.ok.inj hrecords, ?_⟩
    have hclause : ((Meaning.ofDepth (depth + 1)).feedRows context
        (.clause .rows position (.orderBy keys) distributed)).result env =
        (Engine.result ((Meaning.ofDepth depth).clauseCollection context position distributed
          (.orderBy keys)) env).mapError (·.locate position) := Engine.result_locate
    rw [hclause, Meaning.clauseCollection,
      Engine.result_bind fun c _ => ((follows_plans env depth).sortedRows keys c).1, hdistributed]
    have hcounted (c : Collection Tuple) :
        Engine.Steady env (do Engine.count Metrics.shuffled; return c) :=
      Tends.steady_bind (fun _ => rfl) fun _ _ => rfl
    show Except.mapError _ (Engine.result (PlanEvaluator.sortedRows _ keys context tuples) env) = _
    rw [PlanEvaluator.sortedRows, Engine.result_bind fun _ _ =>
      Tends.steady_bind (Tends.ofResult (F := pure 0) (L := True) _).1 fun c => hcounted c, hkeyed]
    show Except.mapError _ (Engine.result (Run.ofResult _ >>= _) env) = _
    rw [Engine.result_bind fun c _ => hcounted c, Engine.result_ofResult]
    cases keyed.sortKeyed (compareSortKeys keys) <;> rfl

end

/-! ## The clause -/

/-- All tuples compare unless two of them have keys that clash. -/
theorem pairwise_comparable_iff {keyOf : Tuple → SortKey} {tuples : List Tuple}
    (hexact : ∀ t ∈ tuples, SortKey.IsExact keys (keyOf t)) :
    ((keyedBy keyOf tuples).Pairwise fun a b => Comparable (compareSortKeys keys) a.1 b.1) ↔
      ¬ ∃ a b, [a, b].Sublist tuples ∧ SortKey.Clash keys (keyOf a) (keyOf b) := by
  rw [keyedBy, List.pairwise_map, List.pairwise_iff_forall_sublist]
  simp only [not_exists, not_and]
  refine forall₂_congr fun a b => imp_congr_right fun hab => ?_
  have ha : a ∈ tuples := hab.subset (by simp)
  have hb : b ∈ tuples := hab.subset (by simp)
  rw [← not_comparable_iff_clash (hexact a ha) (hexact b hb), not_not]

/-- What settles on a located result fails exactly if the result is a failure. -/
theorem exists_settles_error_iff {α : Type} {x : ℕ → Engine α} {r : EngineResult α}
    {position : SourcePosition} (h : Settles env x (r.locate position)) :
    (∃ e, Settles env x (.error e)) ↔ ¬ ∃ a, r = .ok a := by
  cases r with
  | ok a => exact iff_of_false (fun ⟨e, he⟩ => nomatch h.unique he) fun hn => hn ⟨a, rfl⟩
  | error e => exact iff_of_true ⟨_, h⟩ fun ⟨a, ha⟩ => nomatch ha

/-- Both forms of the clause settle on sorts of the tuples by their keys: of one run, and of partitions. -/
theorem settles_orderBy {tuples : Collection Tuple} {keyOf : Tuple → SortKey} {position : SourcePosition}
    {pulled distributed : Pipeline}
    (hpulled : Settles env (fun depth => Step.eval pulled.feed
      ((Evaluator.ofDepth depth).gatherAll (fun tuple => pure tuple) context)) (.ok tuples.records))
    (hdistributed : Settles env (fun depth => Step.eval distributed.feed
      ((Evaluator.ofDepth depth).feedRows context)) (.ok tuples))
    (hkeys : ∀ t ∈ tuples.records, Settles env
      (fun depth => (Evaluator.ofDepth depth).plans.sortKey keys context t) (.ok (keyOf t)))
    (hexact : ∀ t ∈ tuples.records, ∀ i, some i ∈ keyOf t → i.IsExactAtomic) :
    (∀ t ∈ tuples.records, SortKey.IsExact keys (keyOf t)) ∧
    Settles env (fun depth => Step.eval (Pipeline.clause .host position (.orderBy keys) pulled).feed
        ((Evaluator.ofDepth depth).gatherAll (fun tuple => pure tuple) context))
      (EngineResult.locate (List.map (·.2) <$> sortRun (compareSortKeys keys)
        (keyedBy keyOf tuples.records)) position) ∧
    ∃ keyed : Collection (SortKey × Tuple), keyed.records = keyedBy keyOf tuples.records ∧
      Settles env (fun depth =>
          Step.eval (Pipeline.clause .rows position (.orderBy keys) distributed).feed
            ((Evaluator.ofDepth depth).feedRows context))
        (EngineResult.locate (keyed.sortKeyed (compareSortKeys keys)) position) := by
  have hknown : context.Known fun _ => context.scopes := fun _ _ => rfl
  -- A depth at which the tuples and all their keys are known; what happens there is what happens.
  obtain ⟨depth, hpulled, hdistributed, hkeys⟩ :=
    (((hknown.meant_gatherAll pulled).settles_iff_eventually.mp hpulled).and
      (((hknown.meant_feedRows distributed).settles_iff_eventually.mp hdistributed).and
        ((Filter.eventually_all_finite (List.finite_toSet tuples.records)).mpr fun t ht =>
          (meant_sortKey t).settles_iff_eventually.mp (hkeys t ht)))).exists
  rw [Engine.result_given] at hpulled
  obtain ⟨keyed, hrecords, hresult⟩ := result_orderBy_rows hdistributed hkeys
  refine ⟨fun t ht => isExact_of_sortKey (hkeys t ht) (hexact t ht), ?_, keyed, hrecords, ?_⟩
  · exact (hknown.meant_gatherAll _).settles_of_result (depth + 1)
      (Engine.result_given.trans (result_orderBy_host hpulled hkeys))
  · exact (hknown.meant_feedRows _).settles_of_result (depth + 1) hresult

/-- **`order by` does not depend on partitions.** Let the tuples that come before a clause have keys of
empty components and atomics that are no doubles. Then the clause fails over the distributed tuples if
and only if it fails on the host, and both do exactly if the keys of two tuples clash. Otherwise both
give the tuples in the one order that is the stable sort by the keys. -/
theorem ordered_over_partitions {tuples : Collection Tuple} {keyOf : Tuple → SortKey}
    {position : SourcePosition} {pulled distributed : Pipeline}
    (hpulled : Settles env (fun depth => Step.eval pulled.feed
      ((Evaluator.ofDepth depth).gatherAll (fun tuple => pure tuple) context)) (.ok tuples.records))
    (hdistributed : Settles env (fun depth => Step.eval distributed.feed
      ((Evaluator.ofDepth depth).feedRows context)) (.ok tuples))
    (hkeys : ∀ t ∈ tuples.records, Settles env
      (fun depth => (Evaluator.ofDepth depth).plans.sortKey keys context t) (.ok (keyOf t)))
    (hexact : ∀ t ∈ tuples.records, ∀ i, some i ∈ keyOf t → i.IsExactAtomic) :
    let host := fun depth => Step.eval (Pipeline.clause .host position (.orderBy keys) pulled).feed
      ((Evaluator.ofDepth depth).gatherAll (fun tuple => pure tuple) context)
    let rows := fun depth =>
      Step.eval (Pipeline.clause .rows position (.orderBy keys) distributed).feed
        ((Evaluator.ofDepth depth).feedRows context)
    let clash := ∃ a b, [a, b].Sublist tuples.records ∧ SortKey.Clash keys (keyOf a) (keyOf b)
    ((∃ e, Settles env rows (.error e)) ↔ ∃ e, Settles env host (.error e)) ∧
    ((∃ e, Settles env host (.error e)) ↔ clash) ∧
    (¬ clash → ∃ sorted, StablySorts (compareSortKeys keys) (keyedBy keyOf tuples.records) sorted ∧
      (∀ other, StablySorts (compareSortKeys keys) (keyedBy keyOf tuples.records) other →
        other = sorted) ∧
      Settles env host (.ok (sorted.map (·.2))) ∧
      ∃ c, Settles env rows (.ok c) ∧ c.records = sorted.map (·.2)) := by
  intro host rows clash
  obtain ⟨hexact, hhost, keyed, hrecords, hrows⟩ := settles_orderBy hpulled hdistributed hkeys hexact
  have hcoherent := coherent_compareSortKeys keys
  have hP : ∀ r ∈ keyedBy keyOf tuples.records, SortKey.IsExact keys r.1 := by
    rintro _ hr
    obtain ⟨t, ht, rfl⟩ := List.mem_map.mp hr
    exact hexact t ht
  have hPc : ∀ r ∈ keyed.records, SortKey.IsExact keys r.1 := hrecords ▸ hP
  have hrun := exists_sortRun_iff hcoherent hP
  have hpartitions := Collection.exists_sortKeyed_iff hcoherent hPc
  rw [hrecords, pairwise_comparable_iff hexact] at hpartitions
  rw [pairwise_comparable_iff hexact] at hrun
  have hfails : (∃ e, Settles env host (.error e)) ↔ clash := by
    rw [exists_settles_error_iff hhost, ← not_iff_not, not_not, ← hrun]
    cases sortRun (compareSortKeys keys) (keyedBy keyOf tuples.records) <;> simp
  refine ⟨?_, hfails, fun hclash => ?_⟩
  · rw [hfails, exists_settles_error_iff hrows, hpartitions, not_not]
  · obtain ⟨sorted, hs⟩ := hrun.mpr hclash
    obtain ⟨c, hc⟩ := hpartitions.mpr hclash
    have hsorted := stablySorts_of_sortRun hcoherent hP hs
    obtain ⟨sorted', hsorted', hc'⟩ := Collection.stablySorts_of_sortKeyed hcoherent hPc hc
    rw [hrecords] at hsorted'
    cases hsorted.unique hcoherent hP hsorted'
    rw [hs] at hhost
    rw [hc] at hrows
    exact ⟨sorted, hsorted, fun other ho => ho.unique hcoherent hP hsorted, hhost, c, hrows, hc'⟩

/-- The first item of a value on the host. -/
def Value.hostHead? : Value Item → Option Item
  | .items xs => xs.head?
  | _ => none

/-- A null stands between a truth value and a text, which are in partitions apart. Both forms of the clause
find that the two have no order. -/
theorem ordered_over_two_partitions :
    let env : Environment := ⟨1, none, .empty, .empty, .info, []⟩
    let literal (value : Json) : Plan := .mk .host .unknown (.compute (.literal value))
    let items : Plan :=
      .mk .host .unknown (.sequence [literal (.bool true), literal .null, literal (.string "a")])
    let cut : Plan :=
      .mk .rows .unknown (.compute (.builtin .parallelize [items, literal (.integer 2)]))
    let keys : List (OrderKey Plan) := [⟨.mk .host .unknown (.varRef "x"), true, .greatest⟩]
    let host : Pipeline := .clause .host .unknown (.orderBy keys)
      (.clause .host .unknown (.forEach "x" none false items) .start)
    let rows : Pipeline := .clause .rows .unknown (.orderBy keys)
      (.clause .rows .unknown (.forEach "x" none false cut) .start)
    (∃ e, Settles env (fun depth => Step.eval host.feed
      ((Evaluator.ofDepth depth).gatherAll (fun tuple => pure tuple) .root)) (.error e)) ∧
    ∃ e, Settles env (fun depth => Step.eval rows.feed
      ((Evaluator.ofDepth depth).feedRows .root)) (.error e) := by
  intro env literal items cut keys host rows
  let tuple (i : Item) : Tuple := ⟨[("x", .items [i])]⟩
  let tuples : Collection Tuple :=
    ⟨[[tuple (.boolean true), tuple .null], [tuple (.string "a")]]⟩
  let keyOf (t : Tuple) : SortKey := t.pairs.map fun p => p.2.hostHead?
  have hpulled : Settles env (fun depth => Step.eval
      (Pipeline.clause .host .unknown (.forEach "x" none false items) .start).feed
      ((Evaluator.ofDepth depth).gatherAll (fun tuple => pure tuple) .root)) (.ok tuples.records) :=
    (meant_gatherAll _ rfl).settles_of_value? 4 rfl
  have hrows : Settles env (fun depth => Step.eval
      (Pipeline.clause .rows .unknown (.forEach "x" none false cut) .start).feed
      ((Evaluator.ofDepth depth).feedRows .root)) (.ok tuples) :=
    (meant_feedRows _ rfl).settles_of_value? 5 rfl
  have hmem : ∀ t ∈ tuples.records,
      t = tuple (.boolean true) ∨ t = tuple .null ∨ t = tuple (.string "a") := by
    simp [tuples, Collection.records]
  have hkeys : ∀ t ∈ tuples.records, Settles env
      (fun depth => (Evaluator.ofDepth depth).plans.sortKey keys .root t) (.ok (keyOf t)) := by
    intro t ht
    obtain rfl | rfl | rfl := hmem t ht
    all_goals exact (meant_sortKey _).settles_of_value? 3 rfl
  have hexact : ∀ t ∈ tuples.records, ∀ i, some i ∈ keyOf t → i.IsExactAtomic := by
    intro t ht i hi
    obtain rfl | rfl | rfl := hmem t ht
    all_goals
      cases List.mem_singleton.mp hi
      exact ⟨rfl, fun d h => by cases h⟩
  obtain ⟨hboth, hhost, -⟩ := ordered_over_partitions hpulled hrows hkeys hexact
  have hclash := hhost.mpr
    ⟨_, _, .cons_cons _ (.cons _ (.refl _)), .here ⟨rfl, rfl, rfl, by decide⟩⟩
  exact ⟨hclash, hboth.mpr hclash⟩

end

end HybridQuery
