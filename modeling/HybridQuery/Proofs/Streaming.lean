import HybridQuery.Proofs.Meaning.Success

/-!
# Streams of tuples, pulled and distributed

`for`, `let`, `where`, `count` and `return` work tuple by tuple. Pulled on the host or applied to the
partitions of a collection, they come to the same function on lists of tuples.

* `Meaning.clauseTuples`: what a clause makes of a list of tuples. `all?_clauseItems` says it of the
  clause on the host, `records?_clauseCollection` of its distributed form.
* `Pipeline.Agree`: two chains of clauses yield the same tuples. `Agree.clause` adds a clause,
  `Agree.follow` a list of them.
* `streamed_over_partitions`: a pipeline over a list and the pipeline over its partitions succeed alike,
  with the same tuples after every clause and the same items.
-/

namespace HybridQuery

open Filter

variable {env : Environment} {context : Context}

/-! ## Clauses on lists of tuples -/

/-- A clause that works tuple by tuple; a variable that it binds by `let` is bound on the host. -/
def ClauseOperation.Streams : ClauseOperation → Prop
  | .forEach .. | .keepWhere _ | .count _ => True
  | .letBe _ value => value.mode = .host
  | .orderBy _ | .groupBy _ => False

/-- A distributed result that is pulled to the host without a cap gives all its records. -/
theorem Trace.all?_trace_materialize {α : Type} (hcap : env.materializationCap = none)
    (x : Engine (Collection α)) (position : SourcePosition) :
    (Engine.trace (do Engine.materialize (← x) position) env).all? = Collection.records? x env := by
  have hsteady (c : Collection α) : (Engine.materialize c position).Steady env :=
    (Tends.materialize (F := ⊥) (L := True) c position).1
  rw [Engine.trace, Trace.ofResult, Trace.all?_attempt, ← Engine.value?,
    Engine.value?_bind fun c _ => hsteady c]
  simp only [Engine.value?_materialize hcap, Trace.all?_ofList, Collection.records?]
  cases x.value? env <;> rfl

namespace Meaning

section
variable (M : Meaning) (env : Environment) (context : Context)

/-- What a clause that works tuple by tuple makes of a list of tuples. -/
def clauseTuples (tuples : List Tuple) : ClauseOperation → Option (List Tuple)
  | .forEach name place allowingEmpty source =>
    (tuples.mapM fun tuple => (M.items env (tuple.scope context) source).all?.map fun items =>
      ForVariables.expand ⟨name, place⟩ allowingEmpty tuple items).map List.flatten
  | .letBe name value =>
    tuples.mapM fun tuple => (M.items env (tuple.scope context) value).all?.map fun items =>
      tuple.bind name (.items items)
  | .keepWhere condition =>
    (tuples.mapM fun tuple => ((M.plans.truth condition (tuple.scope context)).value? env).map
      fun kept => if kept then [tuple] else []).map List.flatten
  | .count name => some ((tuples.zipIdx 1).map fun p => countTuple name p.1 p.2)
  | .orderBy _ | .groupBy _ => none

/-- What a `return` makes of a list of tuples. -/
def resultItems (result : Plan) (tuples : List Tuple) : Option Sequence :=
  (tuples.mapM fun tuple => (M.items env (tuple.scope context) result).all?).map List.flatten

end

theorem all?_bound (v : ForVariables) (allowingEmpty : Bool) (tuple : Tuple) (t : Trace Item) :
    (bound v allowingEmpty tuple 0 t).all? = t.all?.map (v.expand allowingEmpty tuple) := by
  have hrest (index : Nat) (t : Trace Item) : (bound v allowingEmpty tuple (index + 1) t).all? =
      t.all?.map fun items => (items.zipIdx (index + 2)).map fun p => v.bind tuple (.single p.1) p.2 := by
    induction t generalizing index with
    | done => simp [bound]
    | failed => rfl
    | item i t ih =>
      rw [bound, Trace.all?_item, Trace.all?_item, ih]
      cases t.all? <;> simp
  cases t with
  | done => cases allowingEmpty <;> simp [bound, ForVariables.expand]
  | failed => rfl
  | item i t =>
    rw [bound, Trace.all?_item, Trace.all?_item, hrest]
    cases t.all? <;> simp [ForVariables.expand]

variable (M : Meaning)

theorem value?_evaluate (p : Plan) (context : Context) :
    (M.plans.evaluate p context).value? env = (M.items env context p).all? := Engine.value?_given _

/-- The value that a plan on the host binds a variable to. -/
theorem value?_hostValue {p : Plan} (hp : p.mode = .host) (context : Context) :
    (M.plans.value p context).value? env = (M.items env context p).all?.map .items := by
  rw [PlanEvaluator.value, hp]
  simp only [Engine.valueIn, Engine.value?_map, value?_evaluate]

/-- On the host a clause makes of the tuples before it what it makes of their list. -/
theorem all?_clauseItems {operation : ClauseOperation} (hs : operation.Streams)
    (position : SourcePosition) (before : Pipeline) :
    (M.clauseItems env context position before operation).all? =
      (M.feed env context before).all?.bind fun tuples =>
        M.clauseTuples env context tuples operation := by
  cases operation with
  | forEach name place allowingEmpty source =>
    simp only [clauseItems, clauseTuples, Trace.all?_bind, all?_bound, Trace.all?_ahead]
  | letBe name value =>
    have hvalue (tuple : Tuple) : (Trace.attempt
        ((M.plans.value value (tuple.scope context)).result env) fun v =>
          .one (tuple.bind name v)).all? =
        ((M.items env (tuple.scope context) value).all?.map fun items =>
          tuple.bind name (.items items)).map fun tuple => [tuple] := by
      rw [Trace.all?_attempt, ← Engine.value?, M.value?_hostValue hs]
      cases (M.items env (tuple.scope context) value).all? <;> rfl
    simp only [clauseItems, clauseTuples, Trace.all?_bind, hvalue, mapM_singleton_option]
  | keepWhere condition =>
    have hkeep (tuple : Tuple) : (Trace.attempt
        ((M.plans.truth condition (tuple.scope context)).result env) fun kept =>
          if kept then .one tuple else .done).all? =
        ((M.plans.truth condition (tuple.scope context)).value? env).map fun kept =>
          if kept then [tuple] else [] := by
      rw [Trace.all?_attempt, ← Engine.value?]
      cases (M.plans.truth condition (tuple.scope context)).value? env with
      | none => rfl
      | some kept => cases kept <;> rfl
    simp only [clauseItems, clauseTuples, Trace.all?_bind, hkeep]
  | count name =>
    have hcount (place : Nat) (tuple : Tuple) : (Trace.one (countTuple name tuple place)).all? =
        (some (countTuple name tuple place)).map fun tuple => [tuple] := rfl
    simp only [clauseItems, clauseTuples, Trace.all?_bindFrom, hcount, mapM_singleton_option]
    congr 1
    funext tuples
    exact List.mapM_pure
  | orderBy keys => exact hs.elim
  | groupBy keys => exact hs.elim

/-- What is made of distributed tuples depends on their records only, if it does so for every
collection. -/
theorem records?_bind {α β : Type} {x : Engine (Collection α)} {f : Collection α → Engine (Collection β)}
    {g : List α → Option (List β)} (hf : ∀ c, (f c).Steady env)
    (hg : ∀ c, Collection.records? (f c) env = g c.records) :
    Collection.records? (x >>= f) env = (Collection.records? x env).bind g := by
  rw [Collection.records?, Engine.value?_bind fun c _ => hf c, Collection.records?]
  cases x.value? env with
  | none => rfl
  | some c => exact hg c

/-- Distributed a clause makes of the tuples before it what it makes of the list of their records. -/
theorem records?_clauseCollection {evs : ℕ → Evaluator} {K : Memory} {F : Filter ℕ}
    {L : Prop} (hM : Evaluator.Follows K F L env evs M) {operation : ClauseOperation} (hs : operation.Streams)
    (position : SourcePosition) {before : Pipeline} (hb : before ≠ .start) :
    Collection.records? (M.clauseCollection context position before operation) env =
      (Collection.records? (M.feedRows context before) env).bind fun tuples =>
        M.clauseTuples env context tuples operation := by
  have hvalue (p : Plan) (tuple : Tuple) : (M.plans.evaluate p (tuple.scope context)).Steady env :=
    (hM.plans.evaluate p (tuple.scope context) (tuple.known_scope context)).1
  cases operation with
  | forEach name place allowingEmpty source =>
    have hclause : M.clauseCollection context position before
        (.forEach name place allowingEmpty source) = (do
          let tuples ← M.feedRows context before
          PlanEvaluator.expandedRows ⟨name, place⟩ allowingEmpty (M.plans.evaluate source) context
            tuples) := by
      cases before with
      | start => exact absurd rfl hb
      | clause => rfl
    rw [hclause]
    refine records?_bind (fun c => (PlanEvaluator.Follows.expandedRows _ _
      fun t _ => hM.plans.evaluate source (t.scope context) (t.known_scope context)).1) fun c => ?_
    rw [PlanEvaluator.expandedRows, Collection.records?_flatMapM fun tuple =>
      Tends.steady_bind (hvalue source tuple) fun _ _ => rfl]
    simp only [clauseTuples, Engine.value?_bind_pure, value?_evaluate]
  | letBe name value =>
    refine records?_bind (fun c => (hM.plans.boundRows name value c).1) fun c => ?_
    rw [PlanEvaluator.boundRows, Collection.records?_mapM fun tuple =>
      Tends.steady_bind (hvalue value tuple) fun _ _ => rfl]
    simp only [clauseTuples, Engine.value?_bind_pure, value?_evaluate]
  | keepWhere condition =>
    refine records?_bind (fun c => (hM.plans.keptRows condition c).1) fun c => ?_
    rw [PlanEvaluator.keptRows, Collection.filterM, Collection.records?_flatMapM fun tuple =>
      Tends.steady_bind (hM.plans.truth (tuple.known_scope context) condition).1 fun _ _ => rfl]
    simp only [clauseTuples, Engine.value?_bind_pure]
  | count name =>
    refine records?_bind (fun _ _ => rfl) fun c => ?_
    rw [clauseTuples, List.zipIdx_succ, List.map_map]
    exact congrArg some (by
      rw [countedRows, Collection.records_map, Collection.records_zipWithIndex]
      rfl)
  | orderBy keys => exact hs.elim
  | groupBy keys => exact hs.elim

/-- The items of a pipeline on the host. -/
theorem all?_flwor (position : SourcePosition) (pipeline : Pipeline) (result : Plan) :
    (M.operationItems env context position (.flwor pipeline result)).all? =
      (M.feed env context pipeline).all?.bind (M.resultItems env context result) := by
  simp only [operationItems, Trace.all?_bind, Trace.all?_ahead]
  rfl

/-- The records of a distributed pipeline. -/
theorem records?_flwor {evs : ℕ → Evaluator} {K : Memory} {F : Filter ℕ}
    {L : Prop} (hM : Evaluator.Follows K F L env evs M) (mode : Mode) (pipeline : Pipeline) (result : Plan) :
    Collection.records? (M.operationRows mode context (.flwor pipeline result)) env =
      (Collection.records? (M.feedRows context pipeline) env).bind
        (M.resultItems env context result) := by
  refine records?_bind (fun c => (hM.plans.projectedRows result c).1) fun c => ?_
  have hresult (tuple : Tuple) : (M.plans.evaluate result (tuple.scope context)).Steady env :=
    (hM.plans.evaluate result (tuple.scope context) (tuple.known_scope context)).1
  rw [PlanEvaluator.projectedRows, Collection.records?_flatMapM hresult]
  simp only [resultItems, value?_evaluate]

end Meaning

/-! ## Chains of clauses -/

namespace Pipeline

/-- The chain that goes on from a chain with clauses of a mode. -/
def follow (mode : Mode) (before : Pipeline) : List (SourcePosition × ClauseOperation) → Pipeline
  | [] => before
  | (position, operation) :: rest => follow mode (.clause mode position operation before) rest

/-- Two chains of clauses yield the same tuples: the first one pulled on the host, the second one
distributed. -/
def Agree (M : Meaning) (env : Environment) (context : Context) (pulled distributed : Pipeline) :
    Prop :=
  (M.feed env context pulled).all? = Collection.records? (M.feedRows context distributed) env

theorem feed_succ (depth : Nat) (position : SourcePosition) (operation : ClauseOperation)
    (before : Pipeline) :
    ((Meaning.ofDepth (depth + 1)).feed env context (.clause .host position operation before)).all? =
      ((Meaning.ofDepth depth).clauseItems env context position before operation).all? := by
  refine (Trace.all?_ahead _).trans ?_
  exact Trace.all?_locate _ position

theorem feedRows_succ (depth : Nat) (position : SourcePosition) (operation : ClauseOperation)
    (before : Pipeline) :
    Collection.records? ((Meaning.ofDepth (depth + 1)).feedRows context
        (.clause .rows position operation before)) env =
      Collection.records?
        ((Meaning.ofDepth depth).clauseCollection context position before operation) env :=
  congrArg (Option.map Collection.records) (Engine.value?_locate _ position)

namespace Agree

variable {depth : Nat} {pulled distributed : Pipeline}

theorem clause (h : Agree (.ofDepth depth) env context pulled distributed)
    (hd : distributed ≠ .start) {operation : ClauseOperation} (hs : operation.Streams)
    (position : SourcePosition) :
    Agree (.ofDepth (depth + 1)) env context (.clause .host position operation pulled)
      (.clause .rows position operation distributed) := by
  rw [Agree, feed_succ, feedRows_succ, Meaning.all?_clauseItems _ hs,
    Meaning.records?_clauseCollection _ (Evaluator.follows_within (fun _ => []) depth) hs position hd, h]

theorem follow {clauses : List (SourcePosition × ClauseOperation)}
    (h : Agree (.ofDepth depth) env context pulled distributed) (hd : distributed ≠ .start)
    (hs : ∀ q ∈ clauses, q.2.Streams) :
    Agree (.ofDepth (depth + clauses.length)) env context (pulled.follow .host clauses)
      (distributed.follow .rows clauses) := by
  induction clauses generalizing depth pulled distributed with
  | nil => exact h
  | cons q clauses ih =>
    rw [List.length_cons, ← Nat.add_assoc, Nat.add_right_comm]
    simp only [List.mem_cons, forall_eq_or_imp] at hs
    exact ih (h.clause hd hs.1 q.1) (by simp) hs.2

/-- A first `for` clause over a list that is pulled, and over a collection of its items. -/
theorem first {source rows : Plan} {c : Collection Item}
    (hsource : ((Meaning.ofDepth depth).items env (Tuple.empty.scope context) source).all? =
      some c.records)
    (hmode : rows.mode.isParallel = true)
    (hrows : ((Meaning.ofDepth depth).rows rows context).value? env = some c)
    (position : SourcePosition) (name : String) (place : Option String) (allowingEmpty : Bool) :
    Agree (.ofDepth (depth + 1)) env context
      (.clause .host position (.forEach name place allowingEmpty source) .start)
      (.clause .rows position (.forEach name place allowingEmpty rows) .start) := by
  have hdistributed : (Meaning.ofDepth depth).clauseCollection context position .start
      (.forEach name place allowingEmpty rows) = (do
        return ForVariables.sourceTuples ⟨name, place⟩ allowingEmpty
          (← (Meaning.ofDepth depth).rows rows context)) := by
    simp only [Meaning.clauseCollection, hmode]
  have hs : (ClauseOperation.forEach name place allowingEmpty source).Streams := trivial
  rw [Agree, feed_succ, feedRows_succ, Meaning.all?_clauseItems _ hs, hdistributed,
    Collection.records?, Engine.value?_bind_pure, hrows]
  simp [Meaning.feed, Meaning.clauseTuples, hsource, ForVariables.records_sourceTuples]

end Agree
end Pipeline

/-- A chain succeeds only if the chain that it goes on from does. -/
theorem Pipeline.feed_of_follow {depth : Nat} {before : Pipeline}
    {clauses : List (SourcePosition × ClauseOperation)} {tuples : List Tuple}
    (hs : ∀ q ∈ clauses, q.2.Streams)
    (h : ((Meaning.ofDepth (depth + clauses.length)).feed env context
      (before.follow .host clauses)).all? = some tuples) :
    ∃ tuples, ((Meaning.ofDepth depth).feed env context before).all? = some tuples := by
  induction clauses generalizing depth before with
  | nil => exact ⟨tuples, h⟩
  | cons q clauses ih =>
    simp only [List.mem_cons, forall_eq_or_imp] at hs
    rw [List.length_cons, ← Nat.add_assoc, Nat.add_right_comm] at h
    obtain ⟨after, hafter⟩ := ih hs.2 h
    rw [feed_succ, Meaning.all?_clauseItems _ hs.1] at hafter
    obtain ⟨tuples, ht, -⟩ := Option.bind_eq_some_iff.mp hafter
    exact ⟨tuples, ht⟩

theorem Pipeline.follow_append (mode : Mode) (before : Pipeline)
    (done rest : List (SourcePosition × ClauseOperation)) :
    before.follow mode (done ++ rest) = (before.follow mode done).follow mode rest := by
  induction done generalizing before with
  | nil => rfl
  | cons q done ih => exact ih _

/-! ## Whole pipelines -/

/-- The items of a pipeline that is pulled. -/
theorem Pipeline.items_succ (depth : Nat) (position : SourcePosition) (pipeline : Pipeline)
    (result : Plan) :
    ((Meaning.ofDepth (depth + 1)).items env context
        (.mk .host position (.flwor pipeline result))).all? =
      ((Meaning.ofDepth depth).feed env context pipeline).all?.bind
        ((Meaning.ofDepth depth).resultItems env context result) :=
  (Trace.all?_locate ((Meaning.ofDepth depth).operationItems env context position
    (.flwor pipeline result)) position).trans (Meaning.all?_flwor _ position pipeline result)

/-- The items of a pipeline over tuples that agree, without a cap on what is pulled to the host. -/
theorem Pipeline.Agree.flwor {depth : Nat} {pulled distributed : Pipeline}
    (h : Agree (.ofDepth depth) env context pulled distributed)
    (hcap : env.materializationCap = none) (position : SourcePosition) (result : Plan) :
    ((Meaning.ofDepth (depth + 1)).items env context
        (.mk .host position (.flwor pulled result))).all? =
      ((Meaning.ofDepth (depth + 1)).items env context
        (.mk .rows position (.flwor distributed result))).all? := by
  have hrows : Collection.records? (Run.distributed "flwor" .rows position
      ((Meaning.ofDepth depth).operationRows .rows context (.flwor distributed result))) env = _ :=
    (congrArg (Option.map Collection.records) (Engine.value?_locate _ position)).trans
      (Meaning.records?_flwor _ (Evaluator.follows_within (fun _ => []) depth) .rows distributed result)
  refine .trans ?_ (Trace.all?_trace_materialize hcap _ position).symm
  refine .trans ?_ hrows.symm
  rw [← h]
  exact items_succ depth position pulled result

/-- The pipeline that starts with a `for` clause over a source. -/
def Pipeline.over (mode : Mode) (position : SourcePosition) (v : ForVariables) (allowingEmpty : Bool)
    (source : Plan) : List (SourcePosition × ClauseOperation) → Pipeline :=
  .follow mode (.clause mode position (.forEach v.item v.place allowingEmpty source) .start)

section
variable {source rows : Plan} {c : Collection Item} {position : SourcePosition} {v : ForVariables}
  {allowingEmpty : Bool}

/-- At all large depths a pipeline over a list agrees with that over its partitions. -/
theorem Pipeline.over_agree (hcontext : context.handle = none)
    (hsource : Settles env
      (fun depth => (Evaluator.ofDepth depth).plans.evaluate source (Tuple.empty.scope context))
      (.ok c.records))
    (hmode : rows.mode.isParallel = true)
    (hrows : Settles env (fun depth => (Evaluator.ofDepth depth).plans.rows rows context) (.ok c))
    {clauses : List (SourcePosition × ClauseOperation)} (hclauses : ∀ q ∈ clauses, q.2.Streams) :
    ∀ᶠ depth in atTop, Agree (.ofDepth depth) env context
      (.over .host position v allowingEmpty source clauses)
      (.over .rows position v allowingEmpty rows clauses) := by
  have hsource := (meant_evaluate source rfl).settles_ok_iff.mp hsource
  have hrows := (meant_rows rows hcontext).settles_ok_iff.mp hrows
  rw [← eventually_add_iff (1 + clauses.length)]
  filter_upwards [hsource, hrows] with depth hs hr
  rw [← Nat.add_assoc]
  rw [Meaning.value?_evaluate] at hs
  exact (Agree.first hs hmode hr position v.item v.place allowingEmpty).follow (by simp) hclauses

/-- **Pulled and distributed pipelines agree.** A pipeline that starts with a `for` clause over a list,
and goes on with clauses that work tuple by tuple, succeeds when it is pulled if and only if it
succeeds over any partitions of the list, and then both give the same tuples after every clause and
the same items in the same order. -/
theorem streamed_over_partitions (hcap : env.materializationCap = none)
    (hcontext : context.handle = none)
    (hsource : Settles env
      (fun depth => (Evaluator.ofDepth depth).plans.evaluate source (Tuple.empty.scope context))
      (.ok c.records))
    (hmode : rows.mode.isParallel = true)
    (hrows : Settles env (fun depth => (Evaluator.ofDepth depth).plans.rows rows context) (.ok c))
    (clauses : List (SourcePosition × ClauseOperation)) (hclauses : ∀ q ∈ clauses, q.2.Streams)
    (result : Plan) :
    let pulled := Pipeline.over .host position v allowingEmpty source
    let distributed := Pipeline.over .rows position v allowingEmpty rows
    let host := Plan.mk .host position (.flwor (pulled clauses) result)
    let parallel := Plan.mk .rows position (.flwor (distributed clauses) result)
    (∀ items,
      Settles env (fun depth => (Evaluator.ofDepth depth).plans.evaluate host context) (.ok items) ↔
      Settles env (fun depth => (Evaluator.ofDepth depth).plans.evaluate parallel context)
        (.ok items)) ∧
    ∀ items,
      Settles env (fun depth => (Evaluator.ofDepth depth).plans.evaluate host context) (.ok items) →
      ∀ done, done <+: clauses → ∃ tuples : Collection Tuple,
        Settles env (fun depth => Step.eval (pulled done).feed
          ((Evaluator.ofDepth depth).gatherAll (fun tuple => pure tuple) context))
          (.ok tuples.records) ∧
        Settles env (fun depth => Step.eval (distributed done).feed
          ((Evaluator.ofDepth depth).feedRows context)) (.ok tuples) := by
  intro pulled distributed host parallel
  have hagree {done : List (SourcePosition × ClauseOperation)} (hd : done <+: clauses) :
      ∀ᶠ depth in atTop, Pipeline.Agree (.ofDepth depth) env context (pulled done)
        (distributed done) :=
    Pipeline.over_agree hcontext hsource hmode hrows fun q hq => hclauses q (hd.subset hq)
  have hhost {items : Sequence} :=
    (meant_evaluate host hcontext : Meant env _ _).settles_ok_iff (a := items)
  have hparallel {items : Sequence} :=
    (meant_evaluate parallel hcontext : Meant env _ _).settles_ok_iff (a := items)
  simp only [Meaning.value?_evaluate] at hhost hparallel
  refine ⟨fun items => ?_, fun items hitems done ⟨rest, hrest⟩ => ?_⟩
  · have hsame : ∀ᶠ depth in atTop, ((Meaning.ofDepth depth).items env context host).all? =
        ((Meaning.ofDepth depth).items env context parallel).all? := by
      rw [← eventually_add_iff 1]
      filter_upwards [hagree (List.prefix_refl clauses)] with depth hd
      exact hd.flwor hcap position result
    rw [hhost, hparallel]
    refine eventually_congr ?_
    filter_upwards [hsame] with depth hd
    rw [hd]
  · have hitems := (eventually_add_iff (rest.length + 1)).mpr (hhost.mp hitems)
    obtain ⟨depth, hd, hi⟩ := ((hagree ⟨rest, hrest⟩).and hitems).exists
    rw [← Nat.add_assoc, Pipeline.items_succ] at hi
    obtain ⟨all, hall, -⟩ := Option.bind_eq_some_iff.mp hi
    have hall : ((Meaning.ofDepth (depth + rest.length)).feed env context
        ((pulled done).follow .host rest)).all? = some all := by
      rw [← hall, ← hrest]
      exact congrArg (fun p => ((Meaning.ofDepth (depth + rest.length)).feed env context p).all?)
        (Pipeline.follow_append .host _ done rest).symm
    have hrests : ∀ q ∈ rest, q.2.Streams := fun q hq =>
      hclauses q (hrest ▸ List.mem_append_right done hq)
    obtain ⟨tuples, htuples⟩ := Pipeline.feed_of_follow hrests hall
    obtain ⟨collected, hcollected, hrecords⟩ := Option.map_eq_some_iff.mp (hd.symm.trans htuples)
    rw [← hrecords] at htuples
    refine ⟨collected, (meant_gatherAll _ hcontext).settles_of_value? depth ?_,
      (meant_feedRows _ hcontext).settles_of_value? _ hcollected⟩
    exact (Engine.value?_given _).trans htuples

end
/-- A pipeline that numbers two items, which stand in the first and in the last of three partitions. -/
theorem streamed_over_three_partitions :
    let env : Environment := ⟨1, none, .empty, .empty, .info, []⟩
    let context := Context.detached
      ((BindingsOf.single "xs" (.items [.integer 7, .integer 8])).bind "parts"
        (.rows ⟨[[.integer 7], [], [.integer 8]]⟩))
    Settles env (fun depth => (Evaluator.ofDepth depth).plans.evaluate
      (.mk .rows .unknown (.flwor
        (.over .rows .unknown ⟨"x", none⟩ false (.mk .rows .unknown (.varRef "parts"))
          [(.unknown, .count "n")])
        (.hostVariable "n" .unknown))) context) (.ok [.integer 1, .integer 2]) := by
  intro env context
  have hsource : Settles env (fun depth => (Evaluator.ofDepth depth).plans.evaluate
      (.hostVariable "xs" .unknown) (Tuple.empty.scope context)) (.ok [.integer 7, .integer 8]) :=
    (meant_evaluate _ rfl).settles_of_value? 2 rfl
  have hrows : Settles env (fun depth => (Evaluator.ofDepth depth).plans.rows
      (.mk .rows .unknown (.varRef "parts")) context)
      (.ok ⟨[[.integer 7], [], [.integer 8]]⟩) :=
    (meant_rows _ rfl).settles_of_value? 2 rfl
  have hclauses : ∀ q ∈ [(SourcePosition.unknown, ClauseOperation.count "n")], q.2.Streams := by
    simp [ClauseOperation.Streams]
  refine ((streamed_over_partitions rfl rfl hsource rfl hrows _ hclauses
    (.hostVariable "n" .unknown)).1 [.integer 1, .integer 2]).mp ?_
  exact (meant_evaluate _ rfl).settles_of_value? 5 rfl

end HybridQuery
