import HybridQuery.Proofs.Digests
import HybridQuery.Proofs.Meaning.Success

/-!
# Groups, on the host and after a shuffle

A shuffle sends every pair to the bucket of its key, and equal keys share a bucket
(`GroupingKey.bucket_eq_of_same`). So the groups of a bucket are those of the whole list that belong
there: with the same representative of the key, and with their members in the same order.

* `Collection.records_groupByKey_perm`: the groups of all buckets are the groups of the list.
* `PlanEvaluator.Keyed`: tuples that hold values on the host; their groups become tuples without fail.
* `grouped_over_partitions`: `group by` on the host and distributed fail alike, and give the same
  tuples up to order.
-/

namespace HybridQuery

/-! ## Groups and buckets -/

namespace Collection

variable {κ α β : Type} {same : κ → κ → Bool}

/-- Adding to a group changes the groups of keys like its own only. -/
theorem filter_addToGroup {p : κ → Bool} (hp : ∀ a b, same a b = true → p a = p b) (key : κ)
    (value : β) (groups : List (κ × List β)) :
    (addToGroup same key value groups).filter (fun g => p g.1) =
      if p key then addToGroup same key value (groups.filter fun g => p g.1)
      else groups.filter fun g => p g.1 := by
  induction groups with
  | nil => cases h : p key <;> simp [addToGroup, h]
  | cons g groups ih =>
    obtain ⟨k, values⟩ := g
    rw [addToGroup]
    cases hs : same k key with
    | true =>
      have hk := hp k key hs
      cases h : p key <;> simp [h, hk, addToGroup, hs]
    | false =>
      simp only [Bool.false_eq_true, ↓reduceIte, List.filter_cons, ih]
      cases h : p key <;> cases hk : p k <;> simp [addToGroup, hs]

/-- The groups of the pairs of some keys are the groups of those keys. -/
theorem filter_groupPairs {p : κ → Bool} (hp : ∀ a b, same a b = true → p a = p b)
    (pairs : List (κ × β)) :
    (groupPairs same pairs).filter (fun g => p g.1) =
      groupPairs same (pairs.filter fun q => p q.1) := by
  have hfold (groups : List (κ × List β)) :
      (pairs.foldl (fun groups q => addToGroup same q.1 q.2 groups) groups).filter (fun g => p g.1) =
        (pairs.filter fun q => p q.1).foldl (fun groups q => addToGroup same q.1 q.2 groups)
          (groups.filter fun g => p g.1) := by
    induction pairs generalizing groups with
    | nil => rfl
    | cons q pairs ih =>
      rw [List.foldl_cons, ih, filter_addToGroup hp, List.filter_cons]
      cases p q.1 <;> rfl
  exact hfold []

/-- The members of a list by their buckets, one bucket after the other. -/
theorem flatMap_buckets_perm (f : α → Nat) (l : List α) (n : Nat) :
    ((List.range n).flatMap fun place => l.filter fun a => f a == place).Perm
      (l.filter fun a => f a < n) := by
  induction n with
  | zero => simp
  | succ n ih =>
    rw [List.range_succ, List.flatMap_append, List.flatMap_singleton]
    have hsplit := List.filter_append_perm (fun a => decide (f a < n))
      (l.filter fun a => decide (f a < n + 1))
    rw [List.filter_filter, List.filter_filter] at hsplit
    refine .trans (.append (ih.trans (.of_eq ?_)) (.of_eq ?_)) hsplit
    · refine List.filter_congr fun a _ => ?_
      rw [Bool.eq_iff_iff]
      simp
      omega
    · refine List.filter_congr fun a _ => ?_
      rw [Bool.eq_iff_iff]
      simp
      omega

/-- **A shuffle loses no group and changes none.** -/
theorem records_groupByKey_perm {bucket : κ → Nat}
    (hbucket : ∀ a b, same a b = true → bucket a = bucket b) (c : Collection (κ × β)) :
    (c.groupByKey same bucket).records.Perm (groupPairs same c.records) := by
  have hcount : 0 < max c.numPartitions 1 := by omega
  have hplace (place : Nat) :
      groupPairs same (c.partitions.flatMap fun partition => partition.filter fun p =>
        bucket p.1 % max c.numPartitions 1 == place) =
      (groupPairs same c.records).filter fun g => bucket g.1 % max c.numPartitions 1 == place := by
    rw [filter_groupPairs (p := fun k => bucket k % max c.numPartitions 1 == place)
      fun a b h => by rw [hbucket a b h], records, List.filter_flatten, List.flatMap_def]
  simp only [groupByKey, shuffle, records, List.map_map]
  simp only [Function.comp_def, hplace, ← List.flatMap_def]
  refine (flatMap_buckets_perm _ _ _).trans (.of_eq ?_)
  exact List.filter_eq_self.mpr fun g _ => by simpa using Nat.mod_lt _ hcount

theorem forall_addToGroup {P : κ → Prop} {Q : β → Prop} {key : κ} (hkey : P key) {value : β}
    (hvalue : Q value) {groups : List (κ × List β)} (h : ∀ g ∈ groups, P g.1 ∧ ∀ b ∈ g.2, Q b) :
    ∀ g ∈ addToGroup same key value groups, P g.1 ∧ ∀ b ∈ g.2, Q b := by
  induction groups with
  | nil => simpa [addToGroup] using ⟨hkey, hvalue⟩
  | cons g groups ih =>
    obtain ⟨⟨hg, hmembers⟩, h⟩ := List.forall_mem_cons.mp h
    rw [addToGroup]
    split
    · exact List.forall_mem_cons.mpr
        ⟨⟨hg, List.forall_mem_append.mpr ⟨hmembers, List.forall_mem_singleton.mpr hvalue⟩⟩, h⟩
    · exact List.forall_mem_cons.mpr ⟨⟨hg, hmembers⟩, ih h⟩

/-- Groups have no keys and no members but those of the pairs. -/
theorem forall_groupPairs {P : κ → Prop} {Q : β → Prop} {pairs : List (κ × β)}
    (h : ∀ p ∈ pairs, P p.1 ∧ Q p.2) : ∀ g ∈ groupPairs same pairs, P g.1 ∧ ∀ b ∈ g.2, Q b := by
  have hfold (groups : List (κ × List β)) (hgroups : ∀ g ∈ groups, P g.1 ∧ ∀ b ∈ g.2, Q b) :
      ∀ g ∈ pairs.foldl (fun groups q => addToGroup same q.1 q.2 groups) groups,
        P g.1 ∧ ∀ b ∈ g.2, Q b := by
    induction pairs generalizing groups with
    | nil => exact hgroups
    | cons p pairs ih =>
      obtain ⟨hp, h⟩ := List.forall_mem_cons.mp h
      exact ih h _ (forall_addToGroup hp.1 hp.2 hgroups)
  exact hfold [] (List.forall_mem_nil _)

/-- The members of the groups are values of the pairs. -/
theorem mem_groupPairs {pairs : List (κ × β)} {g : κ × List β}
    (hg : g ∈ groupPairs same pairs) : ∀ b ∈ g.2, ∃ q ∈ pairs, q.2 = b :=
  (forall_groupPairs (P := fun _ => True) (fun q hq => ⟨trivial, q, hq, rfl⟩) g hg).2

theorem forall_groupByKey {P : κ → Prop} {Q : β → Prop} {bucket : κ → Nat} {c : Collection (κ × β)}
    (h : ∀ p ∈ c.records, P p.1 ∧ Q p.2) :
    ∀ g ∈ (c.groupByKey same bucket).records, P g.1 ∧ ∀ b ∈ g.2, Q b := by
  intro g hg
  obtain ⟨groups, hgroups, hg⟩ := List.mem_flatten.mp hg
  obtain ⟨partition, hpartition, rfl⟩ := List.mem_map.mp hgroups
  obtain ⟨place, -, rfl⟩ := List.mem_map.mp hpartition
  refine forall_groupPairs (fun p hp => ?_) g hg
  obtain ⟨origin, hfrom, hp⟩ := List.mem_flatMap.mp hp
  exact h p (List.mem_flatten.mpr ⟨origin, hfrom, (List.mem_filter.mp hp).1⟩)

end Collection

/-! ## Tuples of groups -/

namespace Tuple

theorem get?_bind (t : Tuple) (name other : String) (value : Value Item) :
    (t.bind name value).get? other = if other = name then some value else t.get? other := by
  simp only [get?, bind]
  induction t.pairs with
  | nil => simp only [setPair, List.lookup_cons, List.lookup_nil]; split <;> simp_all
  | cons p pairs ih =>
    obtain ⟨n, v⟩ := p
    rw [setPair]
    split
    · rename_i h
      subst h
      simp only [List.lookup_cons]
      split <;> simp_all
    · simp only [List.lookup_cons, ih]
      split
      · split
        · simp_all
        · rfl
      · rfl

/-- Every variable is bound to a value on the host. -/
def OnHost (t : Tuple) : Prop := ∀ name value, t.get? name = some value → ∃ items, value = .items items

theorem onHost_of_pairs {t : Tuple} (h : ∀ p ∈ t.pairs, ∃ items, p.2 = .items items) : t.OnHost := by
  intro name value hv
  obtain ⟨before, after, hp, -⟩ := List.lookup_eq_some_iff.mp hv
  exact h (name, value) (by rw [hp]; simp)

/-- The items that a variable is bound to on the host. -/
def itemsOf (t : Tuple) (name : String) : Sequence :=
  match t.get? name with
  | some (.items items) => items
  | _ => []

theorem OnHost.bind {t : Tuple} (h : t.OnHost) (name : String) (items : Sequence) :
    (t.bind name (.items items)).OnHost := by
  intro other value hv
  rw [get?_bind] at hv
  split at hv
  · exact ⟨items, (Option.some.inj hv).symm⟩
  · exact h other value hv

/-- The tuple of a group: the variables that are no keys with all their values in the group, then the
keys. -/
def ofGroup (keys : List (GroupKey Plan)) (group : GroupingKey × List Tuple) : Tuple :=
  match group.2 with
  | [] => .empty
  | first :: _ =>
    let others := first.names.filter fun name => !keys.any (·.variableName == name)
    let tuple := others.foldl
      (fun t name => t.bind name (.items (group.2.flatMap (·.itemsOf name)))) .empty
    (keys.zip group.1).foldl (fun t p => t.bind p.1.variableName (keyValue p.2)) tuple

end Tuple

/-- Distributed tuples make the groups of a list of tuples, in any order. -/
def SameGroups (groups : List Tuple) (c : Collection Tuple) : Prop := c.records.Perm groups

namespace PlanEvaluator

theorem groupValues_onHost (position : SourcePosition) (name : String) {group : List Tuple}
    (h : ∀ t ∈ group, t.OnHost) :
    groupValues position name group = pure (group.flatMap (·.itemsOf name)) := by
  rw [groupValues, mapM_eq_pure (g := (·.itemsOf name)), pure_bind, List.flatMap_def]
  intro t ht
  rw [Tuple.itemsOf]
  cases hv : t.get? name with
  | none => rfl
  | some value =>
    obtain ⟨items, rfl⟩ := h t ht name value hv
    rfl

theorem bindGroupValues_onHost (position : SourcePosition) {group : List Tuple}
    (h : ∀ t ∈ group, t.OnHost) (names : List String) (tuple : Tuple) :
    bindGroupValues position group names tuple = pure (names.foldl
      (fun t name => t.bind name (.items (group.flatMap (·.itemsOf name)))) tuple) := by
  induction names generalizing tuple with
  | nil => rfl
  | cons name names ih => rw [bindGroupValues, groupValues_onHost position name h, pure_bind, ih,
      List.foldl_cons]

/-- The tuple of a group of tuples on the host is made without fail. -/
theorem linearize_onHost (keys : List (GroupKey Plan)) (position : SourcePosition)
    {group : GroupingKey × List Tuple} (h : ∀ t ∈ group.2, t.OnHost) :
    linearize keys position group = pure (Tuple.ofGroup keys group) := by
  obtain ⟨key, group⟩ := group
  cases group with
  | nil => rfl
  | cons first group =>
    simp only [linearize, Tuple.ofGroup, bindGroupValues_onHost position h, pure_bind]

section
variable {env : Environment} {context : Context} {marks : Nat → List Bindings} {F : Filter ℕ}
  {L : Prop} {evs : ℕ → PlanEvaluator} {ev : PlanEvaluator} (h : Follows marks F L env evs ev)
include h

/-- Binding the keys keeps a tuple on the host. -/
theorem onHost_of_groupedTuple {keys : List (GroupKey Plan)} {position : SourcePosition}
    {tuple : Tuple} (ht : tuple.OnHost) {q : GroupingKey × Tuple}
    (hq : (ev.groupedTuple keys position context tuple).result env = .ok q) : q.2.OnHost := by
  have hfrom (keys : List (GroupKey Plan)) (keyed : Tuple) (done : GroupingKey) (hk : keyed.OnHost)
      (hq : (ev.groupedFrom position context tuple keys keyed done).result env = .ok q) :
      q.2.OnHost := by
    induction keys generalizing keyed done with
    | nil => cases hq; exact hk
    | cons key keys ih =>
      rw [groupedFrom] at hq
      obtain ⟨items, -, hq⟩ := Engine.result_bind_ok (fun items _ => Tends.steady_bind
        (Tends.ofResult (F := F) (L := L) _).1
          fun _ => (h.groupedFrom position tuple keys _ _).1) hq
      obtain ⟨component, -, hq⟩ := Engine.result_bind_ok
        (fun _ _ => (h.groupedFrom position tuple keys _ _).1) hq
      exact ih _ _ (hk.bind _ _) hq
  exact hfrom keys tuple [] ht hq

omit h in
theorem linearize_steady (keys : List (GroupKey Plan)) (position : SourcePosition)
    (group : GroupingKey × List Tuple) : (linearize keys position group).Steady env :=
  (Follows.linearize (F := ⊥) (L := True) keys position group).1

omit h in
theorem linearized_steady (keys : List (GroupKey Plan)) (position : SourcePosition)
    (pairs : List (GroupingKey × Tuple)) : (linearized keys position pairs).Steady env :=
  .listMapM (linearize_steady keys position) _

theorem result_shuffled (keys : List (GroupKey Plan)) (position : SourcePosition)
    (tuples : Collection Tuple) :
    (ev.shuffled keys position context tuples).result env =
      (tuples.mapM (ev.groupedTuple keys position context)).result env >>= fun pairs =>
        ((pairs.groupByKey GroupingKey.same GroupingKey.bucket).mapM
          (linearize keys position)).result env := by
  have hgroups (groups : Collection (GroupingKey × List Tuple)) :
      (groups.mapM (linearize keys position)).Steady env :=
    .collectionMapM (linearize_steady keys position) groups
  have hpairs : (tuples.mapM (ev.groupedTuple keys position context)).Steady env :=
    .collectionMapM (fun t => (h.groupedTuple keys position t).1) tuples
  rw [shuffled, Engine.result_note_bind rfl, Engine.result_bind]
  · congr 1
    funext pairs
    rw [Engine.result_note_bind rfl, Engine.result_note_bind rfl]
    · exact hgroups _
    · exact Tends.steady_bind (fun _ => rfl) fun _ => hgroups _
  · exact fun pairs _ => Tends.steady_bind (fun _ => rfl) fun _ =>
      Tends.steady_bind (fun _ => rfl) fun _ => hgroups _
  · exact Tends.steady_bind hpairs fun pairs => Tends.steady_bind (fun _ => rfl) fun _ =>
      Tends.steady_bind (fun _ => rfl) fun _ => hgroups _

variable (context) in
/-- Grouping distributed tuples ends as grouping the list of their records does. -/
theorem shuffled_alike (keys : List (GroupKey Plan)) (position : SourcePosition)
    {tuples : Collection Tuple} (ht : ∀ t ∈ tuples.records, t.OnHost) :
    Alike SameGroups
      (Engine.result (do
        linearized keys position
          (← tuples.records.mapM (ev.groupedTuple keys position context))) env)
      ((ev.shuffled keys position context tuples).result env) := by
  have hsteady (t : Tuple) : (ev.groupedTuple keys position context t).Steady env :=
    (h.groupedTuple keys position t).1
  have hhost : (tuples.records.mapM (ev.groupedTuple keys position context)).result env =
      Collection.records <$> (tuples.mapM (ev.groupedTuple keys position context)).result env := by
    rw [Collection.result_mapM hsteady, Engine.result_listMapM hsteady]
  rw [Engine.result_bind fun pairs _ => linearized_steady keys position pairs, result_shuffled h, hhost]
  cases hp : (tuples.mapM (ev.groupedTuple keys position context)).result env with
  | error f => exact .error f
  | ok pairs =>
    have hpairs : ∀ q ∈ pairs.records, q.2.OnHost := by
      rw [hp, Engine.result_listMapM hsteady] at hhost
      intro q hq
      obtain ⟨t, htuple, hq⟩ := mem_of_mapM_ok hhost hq
      exact onHost_of_groupedTuple h (ht t htuple) hq
    have hperm := @Collection.records_groupByKey_perm _ _ GroupingKey.same GroupingKey.bucket
      (fun _ _ => GroupingKey.bucket_eq_of_same) pairs
    have hmembers : ∀ g ∈ Collection.groupPairs GroupingKey.same pairs.records,
        linearize keys position g = pure (Tuple.ofGroup keys g) := fun g hg =>
      linearize_onHost keys position fun t ht => by
        obtain ⟨q, hq, rfl⟩ := Collection.mem_groupPairs hg t ht
        exact hpairs q hq
    have hgroups : (linearized keys position pairs.records).result env =
        .ok ((Collection.groupPairs GroupingKey.same pairs.records).map (Tuple.ofGroup keys)) := by
      rw [linearized, mapM_eq_pure hmembers]
      rfl
    have hrows := Collection.result_mapM (fun group => (linearize_steady keys position group : Engine.Steady env _))
      (pairs.groupByKey GroupingKey.same GroupingKey.bucket)
    rw [mapM_eq_pure (g := Tuple.ofGroup keys) fun g hg => by
      rw [hmembers g (hperm.mem_iff.mp hg)]; rfl] at hrows
    change Alike _ ((linearized keys position pairs.records).result env)
      (Engine.result ((pairs.groupByKey GroupingKey.same GroupingKey.bucket).mapM
        (linearize keys position)) env)
    rw [hgroups]
    cases hc : Engine.result ((pairs.groupByKey GroupingKey.same GroupingKey.bucket).mapM
        (linearize keys position)) env with
    | error f => rw [hc] at hrows; cases hrows
    | ok c =>
      rw [hc] at hrows
      refine .ok ?_
      rw [SameGroups, show c.records = _ from Except.ok.inj hrows]
      exact hperm.map _

end
end PlanEvaluator

/-! ## Clauses -/

section
variable {env : Environment} {context : Context}

/-- A `group by` clause that is pulled groups the tuples before it, and is blamed for what fails. -/
theorem result_groupBy_host {depth : Nat} {tuples : List Tuple} {pulled : Pipeline}
    (hpulled : ((Meaning.ofDepth depth).feed env context pulled).result = .ok tuples)
    (keys : List (GroupKey Plan)) (position : SourcePosition) :
    ((Meaning.ofDepth (depth + 1)).feed env context
        (.clause .host position (.groupBy keys) pulled)).result =
      (Engine.result (do
        let pairs ← tuples.mapM ((Meaning.ofDepth depth).plans.groupedTuple keys position context)
        PlanEvaluator.linearized keys position pairs) env).mapError (·.locate position) := by
  have hkeyed (t : Tuple) :
      ((Meaning.ofDepth depth).plans.groupedTuple keys position context t).Steady env :=
    ((Evaluator.follows_within (fun _ => []) depth).plans.groupedTuple keys position t).1
  have hclause : ((Meaning.ofDepth (depth + 1)).feed env context
      (.clause .host position (.groupBy keys) pulled)).result =
      (((Meaning.ofDepth depth).clauseItems env context position pulled (.groupBy keys)).result).mapError
        (·.locate position) :=
    (Trace.result_ahead _).trans (Trace.result_locate _ position)
  rw [hclause, Engine.result_bind fun pairs _ => PlanEvaluator.linearized_steady keys position pairs,
    Engine.result_listMapM hkeyed]
  simp only [Meaning.clauseItems, Trace.result_attempt, Meaning.gathered,
    Trace.result_bind_attempt hpulled, Trace.result_trace]

/-- A `group by` clause over tuples that are pulled, and over the same tuples distributed. -/
theorem groupBy_alike {depth : Nat} {tuples : Collection Tuple} (ht : ∀ t ∈ tuples.records, t.OnHost)
    {pulled distributed : Pipeline}
    (hpulled : ((Meaning.ofDepth depth).feed env context pulled).result = .ok tuples.records)
    (hdistributed : ((Meaning.ofDepth depth).feedRows context distributed).result env = .ok tuples)
    (keys : List (GroupKey Plan)) (position : SourcePosition) :
    Alike SameGroups
      ((Meaning.ofDepth (depth + 1)).feed env context
        (.clause .host position (.groupBy keys) pulled)).result
      (((Meaning.ofDepth (depth + 1)).feedRows context
        (.clause .rows position (.groupBy keys) distributed)).result env) := by
  have hfollows : PlanEvaluator.Follows _ _ _ env _ _ :=
    (Evaluator.follows_within (fun _ => []) depth).plans
  have hparallel : ((Meaning.ofDepth (depth + 1)).feedRows context
      (.clause .rows position (.groupBy keys) distributed)).result env =
      (Engine.result ((Meaning.ofDepth depth).clauseCollection context position distributed
        (.groupBy keys)) env).mapError (·.locate position) := Engine.result_locate
  rw [result_groupBy_host hpulled, hparallel, Meaning.clauseCollection,
    Engine.result_bind fun c _ => (hfollows.shuffled keys position c).1, hdistributed]
  exact (PlanEvaluator.shuffled_alike context hfollows keys position ht).mapError (·.locate position)

/-- Grouping a list of tuples on the host. -/
theorem meant_grouped (keys : List (GroupKey Plan)) (position : SourcePosition) (tuples : List Tuple) :
    Meant env
      (fun depth => do
        let pairs ← tuples.mapM ((Evaluator.ofDepth depth).plans.groupedTuple keys position context)
        PlanEvaluator.linearized keys position pairs)
      (fun depth => do
        let pairs ← tuples.mapM ((Meaning.ofDepth depth).plans.groupedTuple keys position context)
        PlanEvaluator.linearized keys position pairs) :=
  .of_follows fun h => (Tends.listMapM (fun t => h.plans.groupedTuple keys position t) _).bind
    fun pairs => PlanEvaluator.Follows.linearized keys position pairs

/-- **`group by` does not depend on partitions.** Over tuples that hold values on the host the
distributed groups fail if and only if the groups on the host do, with the same error, and otherwise
they are the same tuples up to order. -/
theorem grouped_over_partitions (hcontext : context.handle = none) (keys : List (GroupKey Plan))
    (position : SourcePosition) {tuples : Collection Tuple} (ht : ∀ t ∈ tuples.records, t.OnHost) :
    SettleAlike env SameGroups
      (fun depth => do
        let pairs ← tuples.records.mapM
          ((Evaluator.ofDepth depth).plans.groupedTuple keys position context)
        PlanEvaluator.linearized keys position pairs)
      (fun depth => (Evaluator.ofDepth depth).plans.shuffled keys position context tuples) ∧
    ∀ pulled distributed : Pipeline,
      Settles env (fun depth => Step.eval pulled.feed
        ((Evaluator.ofDepth depth).gatherAll (fun tuple => pure tuple) context))
        (.ok tuples.records) →
      Settles env (fun depth => Step.eval distributed.feed
        ((Evaluator.ofDepth depth).feedRows context)) (.ok tuples) →
      SettleAlike env SameGroups
        (fun depth => Step.eval (Pipeline.clause .host position (.groupBy keys) pulled).feed
          ((Evaluator.ofDepth depth).gatherAll (fun tuple => pure tuple) context))
        (fun depth => Step.eval (Pipeline.clause .rows position (.groupBy keys) distributed).feed
          ((Evaluator.ofDepth depth).feedRows context)) := by
  refine ⟨.of_meant (meant_grouped keys position tuples.records)
    (.of_follows fun h => h.plans.shuffled keys position tuples) (.of_forall fun depth =>
      PlanEvaluator.shuffled_alike _ (Evaluator.follows_within (fun _ => []) depth).plans keys position ht),
    fun pulled distributed hpulled hdistributed =>
      .of_meant (meant_gatherAll _ hcontext) (meant_feedRows _ hcontext) ?_⟩
  rw [← eventually_add_iff 1]
  filter_upwards [(meant_gatherAll _ hcontext).settles_iff_eventually.mp hpulled,
    (meant_feedRows _ hcontext).settles_iff_eventually.mp hdistributed] with depth hp hd
  rw [Engine.result_given] at hp ⊢
  exact groupBy_alike ht hp hd keys position

/-- The integer one and the decimal one, in partitions apart, are keys of one group. -/
theorem grouped_over_two_partitions :
    let env : Environment := ⟨1, none, .empty, .empty, .info, []⟩
    let one : Tuple := ⟨[("k", .items [.integer 1]), ("v", .items [.string "a"])]⟩
    let same : Tuple := ⟨[("k", .items [.decimal ⟨10, 1⟩]), ("v", .items [.string "b"])]⟩
    ∃ c, Settles env (fun depth => (Evaluator.ofDepth depth).plans.shuffled [⟨"k", none⟩] .unknown
        .root ⟨[[one], [same]]⟩) (.ok c) ∧
      SameGroups
        [⟨[("v", .items [.string "a", .string "b"]), ("k", .items [.integer 1])]⟩] c := by
  intro env one same
  have hlocal : ∀ t ∈ Collection.records ⟨[[one], [same]]⟩, t.OnHost := by
    intro t ht
    refine Tuple.onHost_of_pairs fun p hp => ?_
    obtain rfl | rfl : t = one ∨ t = same := by simpa [Collection.records] using ht
    all_goals
      obtain rfl | rfl : p = _ ∨ p = _ := by simpa [one, same] using hp
      all_goals exact ⟨_, rfl⟩
  exact (grouped_over_partitions (show Context.root.handle = none from rfl) [⟨"k", none⟩] .unknown hlocal).1.left _
    ((meant_grouped _ _ _).settles_of_value? 1 rfl)

end
end HybridQuery
