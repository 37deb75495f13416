import HybridQuery.Proofs.Uniform.Tuples

/-!
# Clauses make uniform tuples

A clause that is given tuples which bind the same variables makes tuples which bind the same variables: those
of the tuples that it is given, and its own.

* `ClauseOperation.introduces`, `Pipeline.introduces`: the variables of clauses.
* `FeedUpholds`: clauses before that hand out only tuples that bind some variables.
* `ClauseOperation.Holds`: what a clause under way has at hand.
* `FeedUpholds.startClause`, `FeedUpholds.pullClause`, `FeedUpholds.collectClause`: driving a clause keeps
  that, and makes only tuples that bind the variables of the clause as well.
* `Evaluator.feedUpholds_ofDepth`: chains of clauses, by induction on the depth of evaluators.
-/

namespace HybridQuery

variable {env : Environment}

/-! ## The variables of clauses -/

/-- The variables that a clause introduces. -/
def ClauseOperation.introduces : ClauseOperation → List String
  | .forEach name place _ _ => ForVariables.introduces ⟨name, place⟩
  | .letBe name _ | .count name => [name]
  | .groupBy keys => keyNames keys
  | .keepWhere _ | .orderBy _ => []

/-- The variables that the clauses of a chain introduce. -/
def Pipeline.introduces : Pipeline → List String
  | .start => []
  | .clause _ _ operation before => before.introduces ++ operation.introduces

/-! ## The clauses before -/

/-- The next tuple, if there is one, binds each of the variables once, and no other variable. -/
abbrev NextBindsExactly (bound : List String) (next : Option Tuple) : Prop :=
  ∀ t ∈ next, t.BindsExactly bound

/-- Clauses before that are asked by an evaluator hand out only tuples of `T`, as long as they are in a state
of `F`, and they stay in such a state. -/
structure FeedUpholds (env : Environment) (ev : Evaluator) (F : Feed → Prop) (T : Tuple → Prop) : Prop where
  start : ∀ pending, F (.start pending) → T .empty
  closed : ∀ feed, F feed → F feed.closed
  openFeed : ∀ context, Keeps env (ev.openFeed context) F
  nextTuple : Upholds env ev.nextTuple F fun next => ∀ t ∈ next, T t
  feedRows : ∀ context, Upholds env (ev.feedRows context) F fun rows => ∀ t ∈ rows.records, T t

/-- What a clause has at hand: tuples that are still to be extended bind the variables of the clauses before,
and tuples that wait to be handed out those of the clause as well. The clauses before are in a state of `F`. -/
inductive ClauseOperation.Holds (bound : List String) (F : Feed → Prop) :
    ClauseOperation → ClauseNode → Prop
  | forEach {name place allowingEmpty plan binding source feed}
    (hcurrent : ∀ b ∈ binding, NextBindsExactly bound (Binding.current b)) (hfeed : F feed) :
    Holds bound F (.forEach name place allowingEmpty plan)
      (.forEach name place allowingEmpty binding source feed)
  | letBe {name value context feed} (hfeed : F feed) :
    Holds bound F (.letBe name value) (.letBe name value context feed)
  | keepWhere {condition context feed} (hfeed : F feed) :
    Holds bound F (.keepWhere condition) (.keepWhere condition context feed)
  | orderBy {keys sorted feed} (hsorted : BindExactly bound sorted) (hfeed : F feed) :
    Holds bound F (.orderBy keys) (.orderBy keys sorted feed)
  | groupBy {keys position groups feed} (hgroups : BindExactly (bound ++ keyNames keys) groups)
    (hfeed : F feed) : Holds bound F (.groupBy keys) (.groupBy keys position groups feed)
  | count {name counter feed} (hfeed : F feed) :
    Holds bound F (.count name) (.count name counter feed)

theorem ClauseOperation.Holds.closed {bound : List String} {F : Feed → Prop} {operation : ClauseOperation}
    {n : ClauseNode} (hclosed : ∀ feed, F feed → F feed.closed) (hn : operation.Holds bound F n) :
    operation.Holds bound F n.closed := by
  cases hn with
  | forEach _ hf => exact .forEach nofun (hclosed _ hf)
  | letBe hf => exact .letBe (hclosed _ hf)
  | keepWhere hf => exact .keepWhere (hclosed _ hf)
  | orderBy _ hf => exact .orderBy (List.forall_mem_nil _) (hclosed _ hf)
  | groupBy _ hf => exact .groupBy (List.forall_mem_nil _) (hclosed _ hf)
  | count hf => exact .count (hclosed _ hf)

namespace FeedUpholds

variable {ev : Evaluator} {F : Feed → Prop}

/-! ## What is done with the clauses before -/

section
variable {T : Tuple → Prop} (h : FeedUpholds env ev F T)
include h

theorem closeFeed : Keeps env Evaluator.closeFeed F := fun feed hf =>
  .bind (.read (.bind (.write (.lift (fun _ => h.closed feed hf) (h.closed feed hf)))))

section
variable {α : Type} {f : Tuple → Engine α} {P : α → Prop} (hf : ∀ t, T t → (f t).GivesOnly env P)
include hf

theorem gatherTuples (limit : Nat) {gathered : List α} (hgathered : ∀ a ∈ gathered, P a) :
    Upholds env (ev.gatherTuples f limit gathered) F fun l => ∀ a ∈ l, P a := by
  induction limit generalizing gathered with
  | zero => exact .exhausted
  | succ limit ih =>
    refine h.nextTuple.bind fun next hnext => ?_
    cases next with
    | none => exact .pure fun a ha => hgathered a (List.mem_reverse.mp ha)
    | some t =>
      exact (Upholds.lift (hf t (hnext t rfl))).bind fun a ha =>
        ih (List.forall_mem_cons.mpr ⟨ha, hgathered⟩)

theorem gatherAll (context : Context) : Upholds env (ev.gatherAll f context) F fun l => ∀ a ∈ l, P a :=
  (h.openFeed context).upholds.bind fun _ _ => (h.gatherTuples hf ev.limit (List.forall_mem_nil _)).bind
    fun _ hgathered => h.closeFeed.upholds.bind fun _ _ => .pure hgathered

end

/-- The next tuple of the clauses before, with what follows it. -/
theorem mapNext {k : Option Tuple → Step Feed (Option Tuple)} {T' : Tuple → Prop}
    (hnone : k none = pure none)
    (hsome : ∀ t, T t → Upholds env (k (some t)) F fun next => ∀ t ∈ next, T' t) :
    Upholds env (ev.nextTuple >>= k) F fun next => ∀ t ∈ next, T' t := by
  refine h.nextTuple.bind fun next hnext => ?_
  cases next with
  | none => exact hnone ▸ .pure nofun
  | some t => exact hsome t (hnext t rfl)

/-- The distributed tuples of the clauses before, with a transform of them. -/
theorem mapRows {T' : Tuple → Prop} (context : Context) {f : Collection Tuple → Engine (Collection Tuple)}
    (hf : ∀ rows : Collection Tuple, (∀ t ∈ rows.records, T t) →
      (f rows).GivesOnly env fun out => ∀ t ∈ out.records, T' t) :
    Upholds env (do
      let rows ← ev.feedRows context
      Step.lift (f rows)) F fun out => ∀ t ∈ out.records, T' t :=
  (h.feedRows context).bind fun rows hrows => .lift (hf rows hrows)

end

/-! ## Clauses that pull tuples -/

variable {bound : List String} (h : FeedUpholds env ev F (Tuple.BindsExactly bound))
include h

theorem orderedTuples (keys : List (OrderKey Plan)) (context : Context) :
    Upholds env (ev.orderedTuples keys context) F (BindExactly bound) := by
  refine (h.gatherAll (fun t ht => ev.plans.keyedTuple_bindsExactly context keys ht) context).bind
    fun keyed hkeyed => ?_
  have hsorted : EndsIn (fun sorted => ∀ p ∈ sorted, p ∈ keyed) (fun _ => True)
      (sortRun (compareSortKeys keys) keyed) := sortRun_endsIn (fun _ _ _ _ => trivial) keyed
  exact (Upholds.ofResult fun _ => hsorted.of_ok).bind fun sorted hmem =>
    .pure (List.forall_mem_map.mpr fun p hp => hkeyed p (hmem p hp))

theorem groupedTuples (keys : List (GroupKey Plan)) (position : SourcePosition) (context : Context) :
    Upholds env (ev.groupedTuples keys position context) F (BindExactly (bound ++ keyNames keys)) :=
  (h.gatherAll (fun _ ht => PlanEvaluator.groupedTuple_bindsExactly keys position ev.plans context ht)
    context).bind fun _ hpairs => .lift (PlanEvaluator.linearized_bindsExactly keys position hpairs)

theorem letNext (name : String) (value : Plan) (context : Context) :
    Upholds env (ev.letNext name value context) F (NextBindsExactly (bound ++ [name])) :=
  h.mapNext rfl fun _ ht => Keeps.lift.upholds.bind fun value _ =>
    .pure (forall_mem_some.mpr (ht.bind name value))

theorem keepNext (condition : Plan) (context : Context) (limit : Nat) :
    Upholds env (ev.keepNext condition context limit) F (NextBindsExactly bound) := by
  induction limit with
  | zero => exact .exhausted
  | succ limit ih =>
    refine h.mapNext rfl fun t ht => Keeps.lift.upholds.bind fun kept _ => ?_
    cases kept with
    | true => exact .pure (forall_mem_some.mpr ht)
    | false => exact ih

theorem countNext (name : String) :
    Upholds env (ev.countNext name) (fun s => F s.2) (NextBindsExactly (bound ++ [name])) := by
  rintro ⟨counter, feed⟩ hf
  refine .bind (.read (h.nextTuple.part hf (fun _ hf => hf) fun next feed hnext hf => ?_))
  cases next with
  | none => exact .pure ⟨nofun, hf⟩
  | some t =>
    have hcounted := countTuple_bindsExactly name (hnext t rfl) (counter + 1)
    exact .bind (.write (.pure ⟨forall_mem_some.mpr hcounted, hf⟩))

theorem countRows (name : String) (context : Context) :
    Upholds env (ev.countRows name context) F (RowsBindExactly (bound ++ [name])) :=
  (h.feedRows context).bind fun _ hrows => .pure (countedRows_bindsExactly name hrows)

/-! ### `for` -/

/-- The states of a `for` clause that is pulled. -/
abbrev ForHolds (bound : List String) (F : Feed → Prop) (s : Evaluator.ForState) : Prop :=
  NextBindsExactly bound s.1.current ∧ F s.2.2

section
variable (v : ForVariables) (allowingEmpty : Bool)

omit h in
/-- What the source gives decides how often its tuple is extended, not what is bound in it. -/
theorem currentBound {s : Evaluator.ForState} (hs : ForHolds bound F s) :
    Leaves env (ev.currentBound v allowingEmpty s) s
      (fun next s => NextBindsExactly (bound ++ v.introduces) next ∧ ForHolds bound F s)
      (ForHolds bound F) := by
  obtain ⟨⟨context, current, index⟩, source, feed⟩ := s
  obtain ⟨hcurrent, hf⟩ := hs
  cases current with
  | none => exact .pure ⟨nofun, hcurrent, hf⟩
  | some t =>
    have ht := hcurrent t rfl
    refine Keeps.trivial.part trivial (fun _ _ => ⟨hcurrent, hf⟩) fun next source _ => ?_
    cases next with
    | some i =>
      have hbound := forall_mem_some.mpr (v.bind_bindsExactly ht (.single i) (index + 1))
      exact .bind (.write (.pure ⟨hbound, hcurrent, hf⟩))
    | none =>
      refine .bind (.write (.pure ⟨?_, nofun, hf⟩))
      split_ifs
      · exact forall_mem_some.mpr (v.bind_bindsExactly ht .empty 0)
      · exact nofun

theorem bindNext (limit : Nat) : Upholds env (ev.bindNext v allowingEmpty limit) (ForHolds bound F)
    (NextBindsExactly (bound ++ v.introduces)) := by
  induction limit with
  | zero => exact .exhausted
  | succ limit ih =>
    rw [Evaluator.bindNext_succ]
    refine fun s hs => .bind (.read (.bind ((currentBound v allowingEmpty hs).mono
      (fun next s hnext => ?_) fun _ => id)))
    cases next with
    | some t => exact .pure hnext
    | none =>
      obtain ⟨b, source, feed⟩ := s
      obtain ⟨-, hcurrent, hf⟩ := hnext
      refine .bind (.read (h.nextTuple.part hf (fun _ hf => ⟨hcurrent, hf⟩) fun next feed hnext hf => ?_))
      cases next with
      | none => exact .pure ⟨nofun, hcurrent, hf⟩
      | some t =>
        -- nothing is said about the source: the tuple becomes the current one, whatever its source gives
        refine Keeps.trivial.part trivial (fun _ _ => ⟨hcurrent, hf⟩) fun _ source _ => ?_
        exact .bind (.write (ih _ ⟨hnext, hf⟩))

/-- The distributed form over a distributed source starts from a tuple without variables. -/
theorem forRows (source : ItemCursor) (context : Context) :
    Upholds env (ev.forRows v allowingEmpty source context) F
      (RowsBindExactly (bound ++ v.introduces)) := by
  intro feed hf
  refine .bind (.read ?_)
  cases hsource : feed.isStart && source.mode.isParallel with
  | true =>
    obtain ⟨pending⟩ | c := feed
    · have hfirst (rows : Collection Item) :
          RowsBindExactly (bound ++ v.introduces) (v.sourceTuples allowingEmpty rows) :=
        v.sourceTuples_bindsExactly allowingEmpty (h.start pending hf) rows
      exact (Keeps.lift.upholds.bind fun rows _ => .pure (hfirst rows)) _ hf
    · cases hsource
  | false =>
    exact h.mapRows context (fun rows hrows =>
      PlanEvaluator.expandedRows_bindsExactly context hrows v allowingEmpty (ev.itemsOf source)) feed hf

end

/-! ## Driving clauses -/

variable {operation : ClauseOperation}

theorem startClause (context : Context) : Keeps env (ev.startClause context) (operation.Holds bound F) := by
  intro n hn
  refine .bind (.read ?_)
  cases hn with
  | forEach hcurrent hf =>
    exact (h.openFeed context).part hf (fun _ hf => .forEach hcurrent hf)
      fun _ _ hf => .write (.forEach (forall_mem_some.mpr nofun) hf)
  | letBe hf =>
    exact (h.openFeed context).part hf (fun _ hf => .letBe hf) fun _ _ hf => .write (.letBe hf)
  | keepWhere hf =>
    exact (h.openFeed context).part hf (fun _ hf => .keepWhere hf) fun _ _ hf => .write (.keepWhere hf)
  | orderBy hsorted hf =>
    exact (h.orderedTuples _ context).part hf (fun _ hf => .orderBy hsorted hf)
      fun _ _ hsorted hf => .write (.orderBy hsorted hf)
  | groupBy hgroups hf =>
    exact (h.groupedTuples _ _ context).part hf (fun _ hf => .groupBy hgroups hf)
      fun _ _ hgroups hf => .write (.groupBy hgroups hf)
  | count hf => exact (h.openFeed context).part hf (fun _ hf => .count hf) fun _ _ hf => .pure (.count hf)

theorem pullClause : Upholds env ev.pullClause (operation.Holds bound F)
    (NextBindsExactly (bound ++ operation.introduces)) := by
  intro n hn
  refine .bind (.read ?_)
  cases hn with
  | @forEach name place allowingEmpty plan binding source feed hcurrent hf =>
    cases binding with
    | none => exact .pure ⟨nofun, .forEach nofun hf⟩
    | some b =>
      exact (h.bindNext ⟨name, place⟩ allowingEmpty ev.limit).whole ⟨hcurrent b rfl, hf⟩
        fun s hs => .forEach (forall_mem_some.mpr hs.1) hs.2
  | @letBe name value context feed hf =>
    cases context with
    | none => exact .pure ⟨nofun, .letBe hf⟩
    | some context => exact (h.letNext name value context).whole hf fun _ hf => .letBe hf
  | @keepWhere condition context feed hf =>
    rw [ClauseOperation.introduces, List.append_nil]
    cases context with
    | none => exact .pure ⟨nofun, .keepWhere hf⟩
    | some context => exact (h.keepNext condition context ev.limit).whole hf fun _ hf => .keepWhere hf
  | @orderBy keys sorted feed hsorted hf =>
    rw [ClauseOperation.introduces, List.append_nil]
    cases sorted with
    | nil => exact .pure ⟨nofun, .orderBy hsorted hf⟩
    | cons t rest =>
      obtain ⟨ht, hrest⟩ := List.forall_mem_cons.mp hsorted
      exact .bind (.write (.pure ⟨forall_mem_some.mpr ht, .orderBy hrest hf⟩))
  | @groupBy keys position groups feed hgroups hf =>
    cases groups with
    | nil => exact .pure ⟨nofun, .groupBy hgroups hf⟩
    | cons t rest =>
      obtain ⟨ht, hrest⟩ := List.forall_mem_cons.mp hgroups
      exact .bind (.write (.pure ⟨forall_mem_some.mpr ht, .groupBy hrest hf⟩))
  | @count name counter feed hf =>
    exact (h.countNext name).whole (S := fun s => F s.2) hf fun _ hf => .count hf

theorem collectClause (context : Context) : Upholds env (ev.collectClause context) (operation.Holds bound F)
    (RowsBindExactly (bound ++ operation.introduces)) := by
  intro n hn
  refine .bind (.read ?_)
  cases hn with
  | @forEach name place allowingEmpty plan binding source feed hcurrent hf =>
    exact (h.forRows ⟨name, place⟩ allowingEmpty source.closed context).whole hf
      fun _ hf => .forEach hcurrent hf
  | letBe hf =>
    exact (h.mapRows context fun _ hrows => ev.plans.boundRows_bindsExactly context hrows _ _).whole hf
      fun _ hf => .letBe hf
  | keepWhere hf =>
    rw [ClauseOperation.introduces, List.append_nil]
    exact (h.mapRows context fun _ hrows => ev.plans.keptRows_bindsExactly context hrows _).whole hf
      fun _ hf => .keepWhere hf
  | orderBy hsorted hf =>
    rw [ClauseOperation.introduces, List.append_nil]
    exact (h.mapRows context fun _ hrows => ev.plans.sortedRows_bindsExactly context hrows _).whole hf
      fun _ hf => .orderBy hsorted hf
  | groupBy hgroups hf =>
    exact (h.mapRows context fun _ hrows =>
      PlanEvaluator.shuffled_bindsExactly _ _ ev.plans context hrows).whole hf fun _ hf => .groupBy hgroups hf
  | @count name counter feed hf =>
    exact (h.countRows name context).whole hf fun _ hf => .count hf

end FeedUpholds

/-! ## Chains of clauses -/

/-- A chain of clauses in which every tuple that is at hand binds the variables of the clauses up to where it
is. -/
def Pipeline.Uniform : Pipeline → Feed → Prop
  | .start => fun feed => ∃ pending, feed = .start pending
  | .clause _ _ operation before => fun feed =>
    ∃ c, feed = .clause c ∧ Cursor.Holds (operation.Holds before.introduces before.Uniform)
      (Tuple.BindsExactly (before.introduces ++ operation.introduces)) c

namespace Pipeline

theorem Uniform.closed : ∀ {p : Pipeline} {feed : Feed}, p.Uniform feed → p.Uniform feed.closed
  | .start, _, ⟨_, rfl⟩ => ⟨false, rfl⟩
  | .clause _ _ _ before, _, ⟨⟨_, _, _, _, _, _⟩, rfl, hc⟩ =>
    ⟨_, rfl, .idle (hc.node.closed fun _ hf => closed (p := before) hf)⟩

theorem uniform_feed (p : Pipeline) : p.Uniform p.feed := by
  cases p with
  | start => exact ⟨false, rfl⟩
  | clause mode position operation before =>
    refine ⟨_, rfl, .idle ?_⟩
    cases operation with
    | forEach => exact .forEach nofun before.uniform_feed
    | letBe => exact .letBe before.uniform_feed
    | keepWhere => exact .keepWhere before.uniform_feed
    | orderBy => exact .orderBy (List.forall_mem_nil _) before.uniform_feed
    | groupBy => exact .groupBy (List.forall_mem_nil _) before.uniform_feed
    | count => exact .count before.uniform_feed

end Pipeline

/-- The single tuple that clauses start from has no variables. -/
theorem feedUpholds_start (ev : Evaluator) :
    FeedUpholds env ev Pipeline.start.Uniform (Tuple.BindsExactly Pipeline.start.introduces) where
  start _ _ := Tuple.empty_bindsExactly
  closed _ := Pipeline.Uniform.closed
  openFeed context := by
    rintro _ ⟨pending, rfl⟩
    exact .bind (.read (.write ⟨true, rfl⟩))
  nextTuple := by
    rintro _ ⟨pending, rfl⟩
    refine .bind (.read (.bind (.write (.pure ⟨?_, false, rfl⟩))))
    cases pending with
    | true => exact forall_mem_some.mpr Tuple.empty_bindsExactly
    | false => exact nofun
  feedRows context := by
    rintro _ ⟨pending, rfl⟩
    exact .bind (.read (.pure ⟨List.forall_mem_singleton.mpr Tuple.empty_bindsExactly, pending, rfl⟩))

namespace Evaluator

/-- A chain hands out only uniform tuples if its last clause is driven so that it upholds what it has at
hand. -/
theorem feedUpholds_of_driven {ev : Evaluator}
    (h : ∀ (operation : ClauseOperation) (before : Pipeline),
      ev.tuples.Upholding (operation.Holds before.introduces before.Uniform)
        (Tuple.BindsExactly (before.introduces ++ operation.introduces)) env) (p : Pipeline) :
    FeedUpholds env ev p.Uniform (Tuple.BindsExactly p.introduces) := by
  cases p with
  | start => exact feedUpholds_start ev
  | clause mode position operation before =>
    have hdriven := h operation before
    refine ⟨?none, fun _ => Pipeline.Uniform.closed, fun context => ?openFeed, ?nextTuple,
      fun context => ?feedRows⟩
    case none =>
      rintro _ ⟨c, hc, -⟩
      cases hc
    case openFeed =>
      rintro _ ⟨c, rfl, hc⟩
      exact .bind (.read ((hdriven.openIn context).whole hc fun c hc => ⟨c, rfl, hc⟩))
    case nextTuple =>
      rintro _ ⟨c, rfl, hc⟩
      exact .bind (.read (hdriven.next?.whole hc fun c hc => ⟨c, rfl, hc⟩))
    case feedRows =>
      rintro _ ⟨c, rfl, hc⟩
      exact .bind (.read ((hdriven.collection context).whole hc fun c hc => ⟨c, rfl, hc⟩))

/-- **Clauses hand out only uniform tuples**, evaluated at any depth. -/
theorem feedUpholds_ofDepth (depth : Nat) (p : Pipeline) :
    FeedUpholds env (ofDepth depth) p.Uniform (Tuple.BindsExactly p.introduces) := by
  -- a clause asks an evaluator that is less deep, which is known to uphold all chains
  induction depth generalizing p with
  | zero =>
    exact feedUpholds_of_driven (fun operation before =>
      { closed := fun _ hn => hn.closed fun _ => Pipeline.Uniform.closed
        start := fun _ => .exhausted
        pull := .exhausted
        collect := fun _ _ => .exhausted }) p
  | succ depth ih =>
    exact feedUpholds_of_driven (fun operation before =>
      { closed := fun _ hn => hn.closed fun _ => Pipeline.Uniform.closed
        start := fun context => (ih before).startClause context
        pull := (ih before).pullClause
        collect := fun _ context => (ih before).collectClause context }) p

end Evaluator
end HybridQuery
