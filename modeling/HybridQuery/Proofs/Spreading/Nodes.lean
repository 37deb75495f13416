import HybridQuery.Proofs.Spreading.Steps

/-!
# Nodes of spread plans

`Meaning.Carries` says that what spread plans yield carries over to what the plans yield. If it holds of
everything below, it holds of nodes.

* `Meaning.Carries.operationItems`, `Meaning.Carries.operationDrawn`, `Meaning.Carries.operationRows`:
  operations, both on the host, distributed beside the host, and both distributed.
* `Meaning.Carries.clauseItems`, `Meaning.Carries.clauseDrawn`, `Meaning.Carries.clauseRows`: the same
  for clauses.
-/

namespace HybridQuery

variable {calls : FunctionKey → Prop} {env' env : Environment}

/-- What spread plans and chains of clauses yield carries over to what the plans and chains yield. What
is distributed also carries over to what is pulled. -/
structure Meaning.Carries (calls : FunctionKey → Prop) (env' env : Environment) (M' M : Meaning) :
    Prop where
  items : ∀ {p' p c' c}, p'.Spread calls p → Context.Like (Plan.Spread calls) c' c →
    Trace.Carries (Item.Like (Plan.Spread calls)) (M'.items env' c' p') (M.items env c p)
  drawn : ∀ {p' p c' c}, p'.Spread calls p → Context.Like (Plan.Spread calls) c' c →
    Engine.Draws env' (Item.Like (Plan.Spread calls)) (M'.rows p' c') (M.items env c p)
  rows : ∀ {p' p c' c}, p'.Spread calls p → p.mode = .rows → Context.Like (Plan.Spread calls) c' c →
    Engine.Carries env' env (Collection.Like (Item.Like (Plan.Spread calls))) (M'.rows p' c')
      (M.rows p c)
  frame : ∀ {p' p c' c}, p'.Spread calls p → Context.Like (Plan.Spread calls) c' c →
    Engine.Never env' (M'.frame p' c')
  feed : ∀ {b' b c' c}, b'.Spread calls b → Context.Like (Plan.Spread calls) c' c →
    Trace.Carries (Tuple.Like (Plan.Spread calls)) (M'.feed env' c' b') (M.feed env c b)
  feedDrawn : ∀ {b' b c' c}, b'.Spread calls b → Context.Like (Plan.Spread calls) c' c →
    Engine.Draws env' (Tuple.Like (Plan.Spread calls)) (M'.feedRows c' b') (M.feed env c b)
  feedRows : ∀ {b' b c' c}, b'.Spread calls b → b.isDistributed → Context.Like (Plan.Spread calls) c' c →
    Engine.Carries env' env (Collection.Like (Tuple.Like (Plan.Spread calls))) (M'.feedRows c' b')
      (M.feedRows c b)

theorem Engine.Meets.carries_given {α' α : Type} {R : α' → α → Prop} {x' : Engine α'}
    {d : Environment → Except Failure α}
    (h : x'.Meets env' (fun a' => ∃ a, d env = .ok a ∧ R a' a) fun _ => True) :
    Engine.Carries env' env R x' (Engine.given d) := by
  refine fun r => h.mono ?_
  rintro a' ⟨a, hd, hr⟩
  exact ⟨a, r, by simp only [Engine.given, hd], hr⟩

/-- A range has integers in it. -/
theorem Meaning.isAtomic_of_mem_rangeItems {low high : Option Int64} {i : Item}
    (hi : i ∈ rangeItems low high) : i.isAtomic = true := by
  have hcount (n : Int64) (count : Nat) (hi : i ∈ countUp n count) : i.isAtomic = true := by
    induction count generalizing n with
    | zero => cases hi
    | succ count ih =>
      obtain rfl | hi := List.mem_cons.mp hi
      · rfl
      · exact ih _ hi
  unfold rangeItems at hi
  split at hi
  · exact hcount _ _ hi
  · cases hi

namespace Meaning.Carries

variable {M' M : Meaning} (h : Meaning.Carries calls env' env M' M)

include h in
theorem plans : PlanEvaluator.Carries (Plan.Spread calls) env' env M'.plans M.plans where
  evaluate hp hc := .given (h.items hp hc).result
  first hp hc := .given (h.items hp hc).ahead.first
  isEmpty hp hc := .given (h.items hp hc).isEmpty
  rows hp hm hc := h.rows hp hm hc
  drawn hp hc := .carries_given ((h.drawn hp hc).mono fun _ hg => hg.result)
  drawnFirst hp hc := .carries_given ((h.drawn hp hc).mono fun _ hg => hg.ahead.first)
  drawnEmpty hp hc := .carries_given ((h.drawn hp hc).mono fun d' hg => ⟨_, hg.isEmpty, by
    simp only [Collection.take]
    cases d'.records <;> rfl⟩)
  frame hp hc := h.frame hp hc

include h in
/-- What a spread plan is evaluated to, the plan gives as it is pulled. -/
theorem evaluated {p' p : Plan} (hp : p'.Spread calls p) {c' c : Context}
    (hc : Context.Like (Plan.Spread calls) c' c) :
    (M'.plans.evaluate p' c').Meets env'
      (fun l' => (M.items env c p).Gives (Item.Like (Plan.Spread calls)) l') fun _ => True :=
  .given (fun _ hl => (h.items hp hc).gives hl) fun _ _ => True.intro

/-! ## Operations -/

section
variable (he : Environment.Spread (Plan.Spread calls) calls env' env)
  {c' c : Context} (hc : Context.Like (Plan.Spread calls) c' c)
include h he hc

omit hc in
/-- A call that passed its checks, pulled. -/
theorem callItems {x' x : FunctionItem × Invocation} (hf : x'.1.Like (Plan.Spread calls) x.1)
    (hi : Invocation.Like (Plan.Spread calls) x'.2 x.2) :
    Trace.Carries (Item.Like (Plan.Spread calls)) (M'.callItems env' x') (M.callItems env x) := by
  obtain ⟨f', i'⟩ := x'
  obtain ⟨f, i⟩ := x
  cases hi with
  | partially hl => exact .one hl
  | fully hd =>
    simp only [Meaning.callItems]
    rw [show f'.signature = f.signature from hf.alike.signature_eq, he.catalogue]
    exact Meaning.checked_carries _ _ (h.items hf.alike.body hd).ahead 0

theorem operationItems {op' op : Operation} (hop : op'.Spread calls op)
    (position' position : SourcePosition) :
    Trace.Carries (Item.Like (Plan.Spread calls)) (M'.operationItems env' c' position' op')
      (M.operationItems env c position op) := by
  cases hop with
  | compute hk => exact (h.plans.compute he hc hk).trace
  | sequence hps =>
    simp only [Meaning.operationItems]
    induction hps with
    | nil => exact .done
    | cons hp _ ih => exact (h.items hp hc).ahead.append ih
  | varRef name =>
    have hv := (.ofResult (hc.binding name) : Engine.Carries env' env _ _ _).bind
      fun _ _ hv => Engine.Carries.items he hv position' position
    exact hv.trace
  | range hf hl =>
    refine .attempt (h.plans.rangeBound hc hf).result ?_
    rintro low _ rfl
    refine .attempt (h.plans.rangeBound hc hl).result ?_
    rintro high _ rfl
    exact .ofList (List.forall₂_same.mpr fun i hi => .atomic (isAtomic_of_mem_rangeItems hi))
  | conditional hcond hy hn =>
    refine .attempt (h.plans.truth hc hcond).result ?_
    rintro chosen _ rfl
    cases chosen
    · exact (h.items hn hc).ahead
    · exact (h.items hy hc).ahead
  | navigate hs hi =>
    refine .attempt (h.plans.stepOperand hc hs).result ?_
    rintro operand _ rfl
    exact (h.items hi hc).ahead.bindFrom
      (fun place _ _ hi => (h.plans.applyStep hc hs operand place hi).trace) 1
  | staticCall hname ha =>
    refine .attempt (h.plans.namedCall hc he hname ha).result ?_
    exact fun x' x hx => h.callItems he hx.1 hx.2.1
  | dynamicCall hf ha =>
    refine .attempt (h.plans.computedCall hc he hf ha position' position).result ?_
    exact fun x' x hx => h.callItems he hx.1 hx.2
  | flwor hp hr =>
    exact (h.feed hp hc).bind fun _ _ ht => (h.items hr (hc.scope ht)).ahead

omit he in
/-- The distributed forms of members, beside members that are pulled. -/
theorem memberDrawn {ps' ps : List Plan} (hps : List.Forall₂ (Plan.Spread calls) ps' ps)
    (done' : Collection Item) :
    (M'.memberRows c' done' ps').Meets env' (fun d' => ∃ l', d'.records = done'.records ++ l' ∧
      (M.memberItems env c ps).Gives (Item.Like (Plan.Spread calls)) l') fun _ => True := by
  induction hps generalizing done' with
  | nil => exact .pure ⟨[], (List.append_nil _).symm, .done⟩
  | cons hp _ ih =>
    refine Engine.Meets.bind_of (h.drawn hp hc) fun rows hrows => (ih _).mono ?_
    rintro d' ⟨l', hd, hl⟩
    refine ⟨rows.records ++ l', ?_, hrows.ahead.append hl⟩
    rw [hd, ← List.append_assoc]
    simp [Collection.union, Collection.records]

omit he hc in
/-- The distributed form of a body, beside one that is pulled. -/
theorem bodyDrawn {f' f : FunctionItem} (hf : f'.Like (Plan.Spread calls) f) {d' d : Context}
    (hd : Context.Like (Plan.Spread calls) d' d) (mode' : Mode) :
    Engine.Draws env' (Item.Like (Plan.Spread calls)) (M'.plans.bodyRows mode' f' d')
      (M.items env d f.body) := by
  unfold PlanEvaluator.bodyRows
  split
  · exact .of_never (Engine.Never.bind (h.frame hf.alike.body hd) _)
  · exact h.drawn hf.alike.body hd

/-- The distributed form of an operation, beside one that is pulled. -/
theorem operationDrawn {op' op : Operation} (hop : op'.Spread calls op) (mode' : Mode)
    (position : SourcePosition) :
    Engine.Draws env' (Item.Like (Plan.Spread calls)) (M'.operationRows mode' c' op')
      (M.operationItems env c position op) := by
  cases hop with
  | compute hk =>
    cases hk with
    | builtin hb ha =>
      refine (h.plans.sourceDrawn _ ha hc he hb .empty).mono ?_
      rintro d' ⟨l, s, hl, hr⟩
      refine ⟨l, ?_, hr⟩
      simp only [Meaning.operationItems, PlanEvaluator.compute, Engine.trace, Trace.ofResult,
        Engine.result, hl, Trace.attempt_ok]
    | _ => exact .of_never .fail
  | sequence hps =>
    refine (h.memberDrawn hc hps .empty).mono ?_
    rintro d' ⟨l', hd, hl⟩
    rwa [hd]
  | varRef name =>
    refine (((.ofResult (hc.binding name) : Engine.Carries env' env _ _ _).bind
      fun _ _ hv => Engine.Carries.valueDrawn he.cap hv position) .empty).mono ?_
    rintro d' ⟨l, s, hl, hr⟩
    refine ⟨l, ?_, hr⟩
    simp only [Meaning.operationItems, Engine.trace, Trace.ofResult, Engine.result, hl,
      Trace.attempt_ok]
  | range | conditional | dynamicCall => exact .of_never .fail
  | navigate hs hi =>
    simp only [Meaning.operationRows]
    split
    · exact .of_never (Engine.Never.bind (PlanEvaluator.Carries.never_stepFrame (h.frame hi hc)) _)
    · refine .attempt (h.plans.stepOperand hc hs) ?_
      rintro operand _ rfl
      refine Engine.Meets.bind_of (h.drawn hi hc) fun d' hd => ?_
      exact h.plans.stepDrawn hc hs operand hd.ahead
  | staticCall hname ha =>
    simp only [Meaning.operationRows, PlanEvaluator.callRows, PlanEvaluator.fullCall, bind_assoc]
    refine .attempt (h.plans.namedCall hc he hname ha) ?_
    rintro ⟨f', i'⟩ ⟨f, i⟩ ⟨hf, hi, -⟩
    cases hi with
    | partially => exact .of_never (Engine.Never.bind .fail _)
    | fully hd =>
      rw [pure_bind]
      refine Engine.Meets.bind_of (h.bodyDrawn hf hd mode') fun rows hrows => ?_
      simp only [Meaning.callItems]
      rw [show f'.signature = f.signature from hf.alike.signature_eq]
      exact PlanEvaluator.Carries.promoteDrawn he _ hrows.ahead
  | flwor hp hr =>
    have hfeed := h.feedDrawn hp hc
    exact Engine.Meets.bind_of hfeed fun tuples ht => Engine.Draws.flatMapM ht fun _ _ ht =>
      (h.evaluated hr (hc.scope ht)).mono fun _ hl => hl.ahead

omit he in
theorem memberRows {ps' ps : List Plan} (hps : List.Forall₂ (Plan.Spread calls) ps' ps)
    (hm : ∀ p ∈ ps, p.mode.isParallel = true) {done' done : Collection Item}
    (hd : done'.Like (Item.Like (Plan.Spread calls)) done) :
    Engine.Carries env' env (Collection.Like (Item.Like (Plan.Spread calls)))
      (M'.memberRows c' done' ps') (M.memberRows c done ps) := by
  induction hps generalizing done' done with
  | nil => exact .pure hd
  | cons hp _ ih =>
    have hmode := hp.mode_eq_rows (hm _ List.mem_cons_self)
    refine (h.rows hp hmode hc).bind fun rows' rows hrows => ?_
    refine ih (fun p hp => hm p (List.mem_cons_of_mem _ hp)) ?_
    simpa [Collection.Like, Collection.union, Collection.records] using List.rel_append hd hrows

/-- The distributed forms of operations that have them. -/
theorem operationRows {op' op : Operation} (hop : op'.Spread calls op) (hrows : op.HasRows calls)
    (mode' : Mode) :
    Engine.Carries env' env (Collection.Like (Item.Like (Plan.Spread calls)))
      (M'.operationRows mode' c' op') (M.operationRows .rows c op) := by
  cases hop with
  | compute hk =>
    cases hk with
    | builtin hb ha => exact h.plans.sourceRows _ ha hc he hb
    | _ => exact hrows.elim
  | sequence hps => exact h.memberRows hc hps hrows List.Forall₂.nil
  | varRef name => exact (Engine.Carries.ofResult (hc.binding name)).bind fun _ _ => .valueRows
  | range | conditional | dynamicCall => exact hrows.elim
  | navigate hs hi =>
    simp only [Meaning.operationRows, show Mode.rows.isColumnar = false from rfl, Bool.false_eq_true,
      ↓reduceIte]
    split
    · exact .of_never (Engine.Never.bind (PlanEvaluator.Carries.never_stepFrame (h.frame hi hc)) _)
    · refine (h.plans.stepOperand hc hs).bind ?_
      rintro operand _ rfl
      exact (h.rows hi (hi.mode_eq_rows hrows) hc).bind fun _ _ hd =>
        h.plans.stepRows hc hs operand hd
  | staticCall hname ha => exact h.plans.callRows hc he hname ha hrows.1 mode'
  | flwor hp hr =>
    exact (h.feedRows hp hrows hc).bind fun _ _ ht => .flatMapM ht fun _ _ ht =>
      h.plans.evaluate hr (hc.scope ht)

/-- No operation has a columnar form. -/
theorem operationFrame {op' op : Operation} (hop : op'.Spread calls op) :
    Engine.Never env' (M'.operationFrame c' op') := by
  cases hop with
  | compute hk =>
    cases hk with
    | @builtin b _ _ hb ha =>
      cases b
      case structuredJsonFile => exact absurd rfl hb
      all_goals exact Engine.Never.fail
    | _ => exact Engine.Never.fail
  | varRef name =>
    have hv : Engine.Carries env' env _ _ _ := .ofResult (hc.binding name)
    refine (hv .empty).bind_of ?_
    rintro v' ⟨v, -, -, hv⟩
    cases hv <;> exact Engine.Never.fail
  | navigate hs hi => exact PlanEvaluator.Carries.never_stepFrame (h.frame hi hc)
  | staticCall hname ha =>
    refine (h.plans.fullCall hc he hname ha .empty).bind_of ?_
    rintro ⟨f', d'⟩ ⟨⟨f, d⟩, -, -, hf, hd, -⟩
    exact h.frame hf.alike.body hd
  | sequence | range | conditional | dynamicCall | flwor => exact Engine.Never.fail

end

/-! ## Clauses -/

variable {c' c : Context} (hc : Context.Like (Plan.Spread calls) c' c)
include h hc

/-- Clauses that are pulled. -/
theorem clauseItems (he : Environment.Spread (Plan.Spread calls) calls env' env)
    {op' op : ClauseOperation} {m' m : Mode} (hop : op'.Spread calls m' m op)
    {before' before : Pipeline} (hb : before'.Spread calls before)
    (position' position : SourcePosition) :
    Trace.Carries (Tuple.Like (Plan.Spread calls)) (M'.clauseItems env' c' position' before' op')
      (M.clauseItems env c position before op) := by
  have hfeed := h.feed hb hc
  cases hop with
  | forEach name place allowingEmpty hp =>
    exact hfeed.bind fun _ _ ht =>
      Meaning.bound_carries _ _ ht (h.items hp (hc.scope ht)).ahead 0
  | letBe name hp =>
    exact hfeed.bind fun _ _ ht => .attempt (h.plans.value (hc.scope ht) he hp).result
      fun _ _ hv => .one (ht.bind name hv)
  | keepWhere hp =>
    refine hfeed.bind fun _ _ ht => .attempt (h.plans.truth (hc.scope ht) hp).result ?_
    rintro kept _ rfl
    cases kept
    · exact .done
    · exact .one ht
  | count name =>
    exact hfeed.bindFrom (fun place _ _ ht => .one (countTuple_like name ht place)) 1

/-- A distributed `for` clause beside one that is pulled. -/
theorem forDrawn {p' p : Plan} (hp : p'.Spread calls p) (name : String) (place : Option String)
    (allowingEmpty : Bool) {before' before : Pipeline} (hb : before'.Spread calls before)
    (position' position : SourcePosition) :
    Engine.Draws env' (Tuple.Like (Plan.Spread calls))
      (M'.clauseCollection c' position' before' (.forEach name place allowingEmpty p'))
      (M.clauseItems env c position before (.forEach name place allowingEmpty p)) := by
  have hlists : Engine.Draws env' (Tuple.Like (Plan.Spread calls))
      (do
        let tuples ← M'.feedRows c' before'
        PlanEvaluator.expandedRows ⟨name, place⟩ allowingEmpty (M'.plans.evaluate p') c' tuples)
      (M.clauseItems env c position before (.forEach name place allowingEmpty p)) := by
    refine Engine.Meets.bind_of (h.feedDrawn hb hc) fun tuples htuples =>
      Engine.Draws.flatMapM htuples fun t' t ht => ?_
    refine Engine.Meets.bind_of (h.evaluated hp (hc.scope ht)) fun l' hl => .pure ?_
    obtain ⟨l, hl, hr⟩ := hl.ahead
    rw [hl, Meaning.bound_ofList]
    exact .ofList (ForVariables.expand_like _ allowingEmpty ht hr)
  cases hb with
  | clause => exact hlists
  | start =>
    cases hm : p'.mode.isParallel with
    | false => simpa only [Meaning.clauseCollection, hm] using hlists
    | true =>
      simp only [Meaning.clauseCollection, hm]
      refine Engine.Meets.bind_of (h.drawn hp hc.skip) fun d' hd => .pure ?_
      obtain ⟨l, hl, hr⟩ := hd.ahead
      simp only [Meaning.clauseItems, Meaning.feed, Trace.one, Trace.item_bind, Trace.done_bind,
        Trace.append_done, hl, Meaning.bound_ofList]
      rw [ForVariables.records_sourceTuples]
      exact .ofList (ForVariables.expand_like _ allowingEmpty .empty hr)

/-- Distributed clauses beside clauses that are pulled. -/
theorem clauseDrawn {op' op : ClauseOperation} {m' : Mode} (hm : m' ≠ .host)
    (hop : op'.Spread calls m' .host op) {before' before : Pipeline}
    (hb : before'.Spread calls before) (position' position : SourcePosition) :
    Engine.Draws env' (Tuple.Like (Plan.Spread calls))
      (M'.clauseCollection c' position' before' op') (M.clauseItems env c position before op) := by
  have hfeed := h.feedDrawn hb hc
  cases hop with
  | forEach name place allowingEmpty hp =>
    exact h.forDrawn hc hp name place allowingEmpty hb position' position
  | @letBe _ _ p' p name hp host =>
    have hmode : p.mode = .host := by
      rcases host trivial with hm' | hm | hp
      · exact absurd hm' hm
      · cases hm
      · exact hp
    refine Engine.Meets.bind_of hfeed fun _ ht => Engine.Draws.mapM ht fun t' t ht => ?_
    refine Engine.Meets.bind_of (h.evaluated hp (hc.scope ht)) fun l' hl => .pure ?_
    obtain ⟨l, hl, hr⟩ := hl.result
    have hvalue : (M.plans.value p (t.scope c)).result env = .ok (.items l) := by
      have hevaluate : (M.plans.evaluate p (t.scope c)).result env = .ok l :=
        (Engine.result_given).trans hl
      simp only [PlanEvaluator.value, hmode, Engine.valueIn]
      rw [← bind_pure_comp, Engine.result_bind fun _ _ _ => rfl, hevaluate]
      rfl
    rw [hvalue]
    exact .one (ht.bind name (.items hr))
  | keepWhere hp =>
    refine Engine.Meets.bind_of hfeed fun _ ht => Engine.Draws.flatMapM ht fun t' t ht => ?_
    refine (h.plans.truth (hc.scope ht) hp .empty).bind_of ?_
    rintro kept ⟨_, s, hk, rfl⟩
    simp only [Engine.result, hk, Trace.attempt_ok]
    cases kept
    · exact .pure .done
    · exact .pure (.one ht)
  | count name =>
    refine Engine.Meets.bind_of hfeed fun d' ht => .pure ?_
    have hcount := ht.bindFrom_one (Q := Tuple.Like (Plan.Spread calls))
      (g := fun place t => countTuple name t place) (f := fun place t => countTuple name t place)
      (fun place _ _ ht => countTuple_like name ht place) 1
    have hrecords : (countedRows name d').records =
        (d'.records.zipIdx 1).map fun p => countTuple name p.1 p.2 := by
      rw [countedRows, Collection.records_map, Collection.records_zipWithIndex, List.zipIdx_succ,
        List.map_map]
      rfl
    rw [hrecords]
    exact hcount

/-- A first `for` clause, both over distributed tuples; its source is distributed or not. -/
theorem firstForRows {p' p : Plan} (hp : p'.Spread calls p) (name : String) (place : Option String)
    (allowingEmpty : Bool) (position' position : SourcePosition) :
    Engine.Carries env' env (Collection.Like (Tuple.Like (Plan.Spread calls)))
      (M'.clauseCollection c' position' .start (.forEach name place allowingEmpty p'))
      (M.clauseCollection c position .start (.forEach name place allowingEmpty p)) := by
  let v : ForVariables := ⟨name, place⟩
  have hlist {M : Meaning} {c : Context} {p : Plan} :
      Collection.records <$> (do
        let tuples ← M.feedRows c .start
        PlanEvaluator.expandedRows v allowingEmpty (M.plans.evaluate p) c tuples) = (do
        return v.expand allowingEmpty .empty (← M.plans.evaluate p (Tuple.empty.scope c))) := by
    simp only [Meaning.feedRows, pure_bind, PlanEvaluator.expandedRows, Collection.records_flatMapM,
      Collection.records_parallelize, List.mapM_cons, List.mapM_nil, bind_assoc, map_bind, map_pure,
      List.flatten_cons, List.flatten_nil, List.append_nil]
  have hrows {M : Meaning} {c : Context} {p : Plan} :
      Collection.records <$> (do return v.sourceTuples allowingEmpty (← M.rows p c)) = (do
        return v.expand allowingEmpty .empty (← M.rows p c).records) := by
    simp only [map_bind, map_pure, ForVariables.records_sourceTuples]
  refine .of_map (g := Collection.records) (f := Collection.records) ?_
  have hexpand {l' l : Sequence} (hl : Sequence.Like (Plan.Spread calls) l' l) :=
    v.expand_like allowingEmpty (Tuple.Like.empty (S := Plan.Spread calls)) hl
  rcases hp.spreads with hm | ⟨hm', hm⟩
  · simp only [Meaning.clauseCollection, hm, Mode.isParallel_host]
    rw [hlist]
    cases hm' : p'.mode.isParallel with
    | false =>
      dsimp only
      rw [hlist]
      exact (h.plans.evaluate hp (hc.scope .empty)).bind fun _ _ hl => .pure (hexpand hl)
    | true =>
      dsimp only
      rw [hrows]
      exact (h.plans.drawn hp hc.skip).bind fun _ _ hl => .pure (hexpand hl)
  · simp only [Meaning.clauseCollection, hm', hm, Mode.isParallel_rows]
    rw [hrows, hrows]
    exact (h.rows hp hm hc).bind fun _ _ hd => .pure (hexpand hd)

/-- Distributed clauses, both over distributed tuples. -/
theorem clauseRows {op' op : ClauseOperation} {m' m : Mode} (hop : op'.Spread calls m' m op)
    {before' before : Pipeline} (hb : before'.Spread calls before) (hd : before.isDistributed)
    (position' position : SourcePosition) :
    Engine.Carries env' env (Collection.Like (Tuple.Like (Plan.Spread calls)))
      (M'.clauseCollection c' position' before' op') (M.clauseCollection c position before op) := by
  have hfeed := h.feedRows hb hd hc
  cases hop with
  | @forEach _ _ p' p name place allowingEmpty hp =>
    have hlists : Engine.Carries env' env (Collection.Like (Tuple.Like (Plan.Spread calls)))
        (do
          let tuples ← M'.feedRows c' before'
          PlanEvaluator.expandedRows ⟨name, place⟩ allowingEmpty (M'.plans.evaluate p') c' tuples)
        (do
          let tuples ← M.feedRows c before
          PlanEvaluator.expandedRows ⟨name, place⟩ allowingEmpty (M.plans.evaluate p) c tuples) :=
      hfeed.bind fun _ _ htuples => .flatMapM htuples fun _ _ ht =>
        (h.plans.evaluate hp (hc.scope ht)).bind fun _ _ hl =>
          .pure (ForVariables.expand_like _ allowingEmpty ht hl)
    cases hb with
    | clause => exact hlists
    | start => exact h.firstForRows hc hp name place allowingEmpty position' position
  | letBe name hp =>
    exact hfeed.bind fun _ _ htuples => .mapM htuples fun _ _ ht =>
      (h.plans.evaluate hp (hc.scope ht)).bind fun _ _ hl => .pure (ht.bind name (.items hl))
  | keepWhere hp =>
    refine hfeed.bind fun _ _ htuples => .flatMapM htuples fun _ _ ht => ?_
    refine (h.plans.truth (hc.scope ht) hp).bind ?_
    rintro kept _ rfl
    cases kept
    · exact .pure .nil
    · exact .pure (.cons ht .nil)
  | count name => exact hfeed.bind fun _ _ htuples => .pure (countedRows_like name htuples)

end Meaning.Carries
end HybridQuery
