import HybridQuery.Proofs.Meaning.Evaluators

/-!
# Clauses follow their meaning

For each kind of clause: preparing it and pulling it again and again gives the trace of tuples that its
meaning says, provided that the clauses before it and the expressions in it keep to their meaning.

* `Evaluator.starts_forEach`, `Evaluator.starts_orderBy` and their like: one lemma for each clause.
* `Evaluator.Follows.startClause`, `Evaluator.Follows.collectClause`: all of them together.
-/

namespace HybridQuery
namespace Evaluator

open Filter

variable {K : Memory} {L : Prop} {env : Environment} {ev : Evaluator} {M : Meaning}
  {context : Context} {position : SourcePosition} {before : Pipeline}

/-- Starting the node of a clause and pulling it gives a trace. -/
abbrev StartsClause (K : Memory) (L : Prop) (env : Environment) (ev : Evaluator) (context : Context)
    (position : SourcePosition) (before : Pipeline) (operation : ClauseOperation) (n : ClauseNode)
    (t : Trace Tuple) : Prop :=
  Starts L env (ev.startClause context) ev.pullClause (operation.Shapes K position before) n t

/-! ## `for` -/

section
variable {v : ForVariables} {allowingEmpty : Bool} {source : Plan}

/-- Opening the source of a `for` clause for a tuple, anew if it is open. -/
theorem starts_openSource {inner : Context} (h : ev.KeepsPlan K L env M source inner)
    {c : ItemCursor} (hs : source.Shapes K c) :
    Starts L env (ev.openSource inner) ev.items.next? (source.Shapes K) c
      (M.items env inner source).ahead := by
  refine .of_step (fun Q E h => .bind (.read h)) ?_
  have hyields {x : Step ItemCursor Unit}
      (hx : ev.items.Yields source.mode source.position (source.Kind K) (K.top.items source)
        L env x c () (M.items env inner source)) :
      Starts L env x ev.items.next? (source.Shapes K) c (M.items env inner source).ahead :=
    hx.imp (fun ⟨f, hf, hx⟩ => ⟨f, by rw [hf]; rfl, hx⟩) fun hx =>
      hx.mono (fun _ _ h => h.2.pulls.mono fun _ => .of_shaped) fun _ => id
  cases c.isOpen with
  | true => exact hyields (h.resets c hs)
  | false => exact hyields (h.opens c hs)

/-- What is left of the tuples for the current tuple. -/
def BoundRuns (K : Memory) (L : Prop) (env : Environment) (ev : Evaluator) (v : ForVariables)
    (allowingEmpty : Bool) (source : Plan) (b : Binding) (c : ItemCursor) (u : Trace Tuple) : Prop :=
  match b.current with
  | none => u = .done
  | some tuple => ∃ w, Pulls L env ev.items.next? (source.Shapes K) c w ∧
      u = Meaning.bound v allowingEmpty tuple b.index w

/-- What is left of a `for` clause: tuples for the current tuple, and tuples of the clauses before. -/
structure ForRuns (K : Memory) (L : Prop) (env : Environment) (ev : Evaluator) (M : Meaning) (context : Context)
    (before : Pipeline) (v : ForVariables) (allowingEmpty : Bool) (source : Plan) (s : ForState)
    (w t : Trace Tuple) : Prop where
  context_eq : s.1.context = context
  shapes : source.Shapes K s.2.1
  feed : Pulls L env ev.nextTuple (before.Shapes K) s.2.2 w
  keeps : ∀ tuple ∈ w.toList, ev.KeepsPlan K L env M source (tuple.scope context)
  trace : ∃ u, BoundRuns K L env ev v allowingEmpty source s.1 s.2.1 u ∧
    t = u.append (w.bind fun tuple =>
      Meaning.bound v allowingEmpty tuple 0 (M.items env (tuple.scope context) source).ahead)

/-- A round of the loop takes a tuple, so that there are no more rounds than tuples. -/
theorem hands_bindNext {limit : Nat} {s : ForState} {w t : Trace Tuple}
    (hlimit : L ∨ w.toList.length + 1 < limit)
    (h : ForRuns K L env ev M context before v allowingEmpty source s w t) :
    Hands L env (ev.bindNext v allowingEmpty limit) s
      (fun s' => source.Shapes K s'.2.1 ∧ before.Shapes K s'.2.2)
      (fun s' t' => ∃ w', w'.toList.length ≤ w.toList.length ∧
        ForRuns K L env ev M context before v allowingEmpty source s' w' t') t := by
  induction limit generalizing s w t with
  | zero => exact .exhausted (hlimit.resolve_right (by simp))
  | succ limit ih =>
    obtain ⟨⟨inner, current, index⟩, c, feed⟩ := s
    obtain ⟨rfl, hsource, hfeed, hkeeps, u, hu, rfl⟩ := h
    have hnext (b : Binding) (c : ItemCursor) (hb : b.context = inner) (hc : source.Shapes K c) :
        Hands L env (ev.bindAfresh v allowingEmpty limit) (b, c, feed)
          (fun s' => source.Shapes K s'.2.1 ∧ before.Shapes K s'.2.2)
          (fun s' t' => ∃ w', w'.toList.length ≤ w.toList.length ∧
            ForRuns K L env ev M inner before v allowingEmpty source s' w' t')
          (w.bind fun tuple =>
            Meaning.bound v allowingEmpty tuple 0 (M.items env (tuple.scope inner) source).ahead) := by
      subst hb
      refine .bind (.read (.pull hfeed (fun hw feed' hf => ?_) (fun e hw => by rw [hw]; rfl)
        fun tuple w' hw feed' hf => ?_))
      · subst hw
        exact .none ⟨hc, hf⟩
      · subst hw
        simp only [Trace.toList, List.mem_cons, forall_eq_or_imp, List.length_cons] at hkeeps hlimit
        simp only [Trace.item_bind]
        obtain ⟨f, ht, hx⟩ | hx := starts_openSource hkeeps.1 hc
        · rw [ht]
          exact .fails (.part hx)
        · refine .bind (.part (hx.mono (fun _ c' hc' => .bind (.write ?_)) fun _ => id))
          have hruns : ForRuns K L env ev M b.context before v allowingEmpty source
              ({ b with current := some tuple, index := 0 }, c', feed') w' _ :=
            ⟨rfl, hc'.inv, hf, hkeeps.2, _, ⟨_, hc', rfl⟩, rfl⟩
          refine (ih (hlimit.imp_right fun h => by omega) hruns).mono ?_
          rintro s t ⟨w, hw, h⟩
          exact ⟨w, hw.trans (Nat.le_succ _), h⟩
    refine .bind (.read ?_)
    cases current with
    | none =>
      obtain rfl : u = .done := hu
      exact .bind (.pure (hnext _ c rfl hsource))
    | some tuple =>
      obtain ⟨items, hitems, rfl⟩ := hu
      cases items with
      | failed f => exact .fails (.part hitems.2)
      | item i items =>
        refine .bind (.part (hitems.2.mono ?_ fun _ => id))
        rintro o c' ⟨rfl, hc'⟩
        refine .bind (.write (.bind (.pure (.some
          ⟨w, le_rfl, rfl, hc'.inv, hfeed, hkeeps, _, ?_, rfl⟩))))
        exact ⟨items, hc', rfl⟩
      | done =>
        refine .bind (.part (hitems.2.mono ?_ fun _ => id))
        rintro o c' ⟨rfl, hc'⟩
        refine .bind (.write (.bind (.pure ?_)))
        have hdone : Meaning.bound v allowingEmpty tuple index .done =
            if index = 0 ∧ allowingEmpty then .one (v.bind tuple .empty 0) else .done := rfl
        rw [hdone]
        by_cases hempty : index = 0 ∧ allowingEmpty = true
        · simp only [if_pos hempty]
          exact .some ⟨w, le_rfl, rfl, hc', hfeed, hkeeps, .done, rfl, rfl⟩
        · simp only [if_neg hempty]
          exact hnext ⟨inner, none, index⟩ c' rfl hc'

theorem starts_forEach {n : ClauseNode} (hfeed : ev.KeepsFeed K L env M before context)
    (hkeeps : ∀ tuple ∈ (M.feed env context before).toList,
      ev.KeepsPlan K L env M source (tuple.scope context))
    (hlimit : L ∨ (M.feed env context before).toList.length + 1 < ev.limit)
    (hn : (ClauseOperation.forEach v.item v.place allowingEmpty source).Shapes K position before n) :
    StartsClause K L env ev context position before
      (.forEach v.item v.place allowingEmpty source) n
      ((M.feed env context before).bind fun tuple =>
        Meaning.bound v allowingEmpty tuple 0 (M.items env (tuple.scope context) source).ahead) := by
  obtain ⟨hs, hf⟩ := hn
  rename_i binding c feed
  have hpulls (s : ForState) (w t : Trace Tuple) (hw : L ∨ w.toList.length + 1 < ev.limit)
      (h : ForRuns K L env ev M context before v allowingEmpty source s w t) :
      Pulls L env (ev.bindNext v allowingEmpty ev.limit)
        (fun s => source.Shapes K s.2.1 ∧ before.Shapes K s.2.2) s t := by
    refine Pulls.of_relation (R := fun s t => ∃ w, (L ∨ w.toList.length + 1 < ev.limit) ∧
      ForRuns K L env ev M context before v allowingEmpty source s w t) ?_ ?_ t s ⟨w, hw, h⟩
    · rintro s t ⟨w, -, h⟩
      exact ⟨h.shapes, h.feed.inv⟩
    · rintro s t ⟨w, hw, h⟩
      refine (hands_bindNext hw h).mono ?_
      rintro s t ⟨w', hle, h⟩
      exact ⟨w', hw.imp_right fun h => by omega, h⟩
  refine .of_step (fun Q E h => .bind (.read h)) (.part (hfeed.opens feed hf)
    (fun e hw => by rw [hw]; rfl) fun _ feed' hp => .write ?_)
  refine (hpulls (⟨context, none, 0⟩, c, feed') _ _ hlimit
    ⟨rfl, hs, hp, hkeeps, .done, rfl, rfl⟩).through
    (w := fun s : ForState =>
      ClauseNode.forEach v.item v.place allowingEmpty (some s.1) s.2.1 s.2.2)
    (fun _ h => ClauseOperation.Shapes.forEach h.1 h.2) fun s Q E _ h => .bind (.read ?_)
  refine .bind (.part (h.mono (fun _ _ h => ?_) fun _ => id))
  exact .pure h

end

/-! ## `let`, `where` and `count` -/

/-- What is left of a clause that goes through the tuples before it one by one. -/
structure TupleRuns (K : Memory) (L : Prop) (env : Environment) (ev : Evaluator) (before : Pipeline)
    (P : Tuple → Prop) (f : Tuple → Trace Tuple) (feed : Feed) (w t : Trace Tuple) : Prop where
  feed : Pulls L env ev.nextTuple (before.Shapes K) feed w
  each : ∀ tuple ∈ w.toList, P tuple
  trace : t = w.bind f

theorem starts_letBe {name : String} {value : Plan} {n : ClauseNode}
    (hfeed : ev.KeepsFeed K L env M before context)
    (hvalue : ∀ tuple ∈ (M.feed env context before).toList,
      Answers L env (ev.plans.value value (tuple.scope context))
        ((M.plans.value value (tuple.scope context)).result env))
    (hn : (ClauseOperation.letBe name value).Shapes K position before n) :
    StartsClause K L env ev context position before (.letBe name value) n
      ((M.feed env context before).bind fun tuple =>
        .attempt ((M.plans.value value (tuple.scope context)).result env) fun v =>
          .one (tuple.bind name v)) := by
  obtain _ | ⟨hf⟩ := hn
  refine .of_step (fun Q E h => .bind (.read h)) (.part (hfeed.opens _ hf)
    (fun e hw => by rw [hw]; rfl) fun _ feed hp => .write ?_)
  have hpulls : Pulls L env (ev.letNext name value context) (before.Shapes K) feed
      ((M.feed env context before).bind fun tuple =>
        .attempt ((M.plans.value value (tuple.scope context)).result env) fun v =>
          .one (tuple.bind name v)) := by
    refine Pulls.of_relation (R := fun feed t => ∃ w, TupleRuns K L env ev before
      (fun tuple => Answers L env (ev.plans.value value (tuple.scope context))
        ((M.plans.value value (tuple.scope context)).result env))
      (fun tuple => .attempt ((M.plans.value value (tuple.scope context)).result env) fun v =>
          .one (tuple.bind name v)) feed w t) ?_ ?_ _ feed ⟨_, hp, hvalue, rfl⟩
    · rintro feed t ⟨w, h⟩
      exact h.feed.inv
    · rintro feed t ⟨w, hw, heach, rfl⟩
      cases w with
      | failed f => exact .fails hw.2
      | done =>
        refine .bind (hw.2.mono ?_ fun _ => id)
        rintro o feed' ⟨rfl, hf⟩
        exact .none hf
      | item tuple w =>
        refine .bind (hw.2.mono ?_ fun _ => id)
        rintro o feed' ⟨rfl, hf⟩
        simp only [Trace.toList, List.mem_cons, forall_eq_or_imp] at heach
        simp only [Trace.item_bind, Trace.attempt_append]
        exact .lift heach.1 fun v _ => .some ⟨w, hf, heach.2, rfl⟩
  refine hpulls.through (w := fun feed => ClauseNode.letBe name value (some context) feed)
    (fun _ h => ClauseOperation.Shapes.letBe h) fun s Q E _ h => .bind (.read ?_)
  refine .bind (.part (h.mono (fun _ _ h => ?_) fun _ => id))
  exact .pure h

/-- What is left of a `where` clause. -/
abbrev KeepRuns (K : Memory) (L : Prop) (env : Environment) (ev : Evaluator) (context : Context)
    (before : Pipeline) (condition : Plan) (holds : Tuple → Except Failure Bool) :
    Feed → Trace Tuple → Trace Tuple → Prop :=
  TupleRuns K L env ev before
    (fun tuple => Answers L env (ev.plans.truth condition (tuple.scope context)) (holds tuple))
    (fun tuple => .attempt (holds tuple) fun kept => if kept then .one tuple else .done)

/-- A round of the loop takes a tuple, so that there are no more rounds than tuples. -/
theorem hands_keepNext {condition : Plan} {holds : Tuple → Except Failure Bool} {limit : Nat}
    {feed : Feed} {w t : Trace Tuple} (hlimit : L ∨ w.toList.length < limit)
    (h : KeepRuns K L env ev context before condition holds feed w t) :
    Hands L env (ev.keepNext condition context limit) feed (before.Shapes K)
      (fun feed' t' => ∃ w', w'.toList.length ≤ w.toList.length ∧
        KeepRuns K L env ev context before condition holds feed' w' t') t := by
  induction limit generalizing feed w t with
  | zero => exact .exhausted (hlimit.resolve_right (by simp))
  | succ limit ih =>
    obtain ⟨hw, heach, rfl⟩ := h
    cases w with
    | failed f => exact .fails hw.2
    | done =>
      refine .bind (hw.2.mono ?_ fun _ => id)
      rintro o feed' ⟨rfl, hf⟩
      exact .none hf
    | item tuple w =>
      refine .bind (hw.2.mono ?_ fun _ => id)
      rintro o feed' ⟨rfl, hf⟩
      simp only [Trace.toList, List.mem_cons, forall_eq_or_imp, List.length_cons] at heach hlimit
      simp only [Trace.item_bind, Trace.attempt_append]
      refine .lift heach.1 fun kept _ => ?_
      cases kept with
      | true => exact .some ⟨w, Nat.le_succ _, hf, heach.2, rfl⟩
      | false =>
        refine (ih (hlimit.imp_right fun h => by omega) ⟨hf, heach.2, rfl⟩).mono ?_
        rintro s t ⟨w', hw', h⟩
        exact ⟨w', hw'.trans (Nat.le_succ _), h⟩

theorem starts_keepWhere {condition : Plan} {n : ClauseNode}
    (hfeed : ev.KeepsFeed K L env M before context)
    (hcondition : ∀ tuple ∈ (M.feed env context before).toList,
      Answers L env (ev.plans.truth condition (tuple.scope context))
        ((M.plans.truth condition (tuple.scope context)).result env))
    (hlimit : L ∨ (M.feed env context before).toList.length < ev.limit)
    (hn : (ClauseOperation.keepWhere condition).Shapes K position before n) :
    StartsClause K L env ev context position before (.keepWhere condition) n
      ((M.feed env context before).bind fun tuple =>
        .attempt ((M.plans.truth condition (tuple.scope context)).result env) fun kept =>
          if kept then .one tuple else .done) := by
  obtain _ | _ | ⟨hf⟩ := hn
  refine .of_step (fun Q E h => .bind (.read h)) (.part (hfeed.opens _ hf)
    (fun e hw => by rw [hw]; rfl) fun _ feed hp => .write ?_)
  have hpulls : Pulls L env (ev.keepNext condition context ev.limit) (before.Shapes K) feed
      ((M.feed env context before).bind fun tuple =>
        .attempt ((M.plans.truth condition (tuple.scope context)).result env) fun kept =>
          if kept then .one tuple else .done) := by
    refine Pulls.of_relation (R := fun feed t => ∃ w, (L ∨ w.toList.length < ev.limit) ∧
      KeepRuns K L env ev context before condition
        (fun tuple => (M.plans.truth condition (tuple.scope context)).result env) feed w t)
      ?_ ?_ _ feed ⟨_, hlimit, hp, hcondition, rfl⟩
    · rintro feed t ⟨w, -, h⟩
      exact h.feed.inv
    · rintro feed t ⟨w, hw, h⟩
      refine (hands_keepNext hw h).mono ?_
      rintro s t ⟨w', hle, h⟩
      exact ⟨w', hw.imp_right fun h => by omega, h⟩
  refine hpulls.through (w := fun feed => ClauseNode.keepWhere condition (some context) feed)
    (fun _ h => ClauseOperation.Shapes.keepWhere h) fun s Q E _ h => .bind (.read ?_)
  refine .bind (.part (h.mono (fun _ _ h => ?_) fun _ => id))
  exact .pure h

theorem starts_count {name : String} {n : ClauseNode}
    (hfeed : ev.KeepsFeed K L env M before context)
    (hn : (ClauseOperation.count name).Shapes K position before n) :
    StartsClause K L env ev context position before (.count name) n
      ((M.feed env context before).bindFrom
        (fun place tuple => .one (countTuple name tuple place)) 1) := by
  obtain _ | _ | _ | _ | _ | ⟨hf⟩ := hn
  refine .of_step (fun Q E h => .bind (.read h)) (.part (hfeed.opens _ hf)
    (fun e hw => by rw [hw]; rfl) fun _ feed hp => .pure ?_)
  have hpulls : Pulls L env (ev.countNext name) (fun s => before.Shapes K s.2) (0, feed)
      ((M.feed env context before).bindFrom
        (fun place tuple => .one (countTuple name tuple place)) 1) := by
    refine Pulls.of_relation (R := fun s t => ∃ w, Pulls L env ev.nextTuple (before.Shapes K) s.2 w ∧
      t = w.bindFrom (fun place tuple => .one (countTuple name tuple place)) (s.1 + 1)) ?_ ?_ _
      (0, feed) ⟨_, hp, rfl⟩
    · rintro s t ⟨w, h, -⟩
      exact h.inv
    · rintro ⟨counter, feed⟩ t ⟨w, hw, rfl⟩
      refine .bind (.read (.pull hw (fun h feed' hf => ?_) (fun e h => by rw [h]; rfl)
        fun tuple w' h feed' hf => ?_))
      · subst h
        exact .none hf
      · subst h
        exact .bind (.write (.some ⟨w', hf, rfl⟩))
  refine hpulls.through (w := fun s : Nat × Feed => ClauseNode.count name s.1 s.2)
    (fun _ h => ClauseOperation.Shapes.count h) fun s Q E _ h => .bind (.read ?_)
  refine .bind (.part (h.mono (fun _ _ h => ?_) fun _ => id))
  exact .pure h

/-! ## `order by` and `group by` -/

section
variable {α : Type} {f : Tuple → Engine α} {r : Tuple → Except Failure α}

theorem gives_gatherTuples {limit : Nat} {l : List α} {feed : Feed} {w : Trace Tuple}
    (hlimit : L ∨ w.toList.length < limit) (hw : Pulls L env ev.nextTuple (before.Shapes K) feed w)
    (hf : ∀ tuple ∈ w.toList, Answers L env (f tuple) (r tuple)) :
    Gives L env (ev.gatherTuples f limit l) feed (before.Shapes K)
      ((l.reverse ++ ·) <$> (w.bind fun tuple => .attempt (r tuple) .one).result) := by
  induction limit generalizing l feed w with
  | zero => exact .exhausted (hlimit.resolve_right (by simp))
  | succ limit ih =>
    cases w with
    | failed f => exact gives_error.mpr (.bind hw.2)
    | done =>
      refine .bind (hw.2.mono ?_ fun _ => id)
      rintro o feed' ⟨rfl, hf⟩
      have hresult : (l.reverse ++ ·) <$> (Trace.bind .done fun tuple =>
          .attempt (r tuple) .one).result = .ok l.reverse :=
        congrArg Except.ok (List.append_nil _)
      rw [hresult]
      exact .pure hf
    | item tuple w =>
      refine .bind (hw.2.mono ?_ fun _ => id)
      rintro o feed' ⟨rfl, hfeed⟩
      simp only [Trace.toList, List.mem_cons, forall_eq_or_imp, List.length_cons] at hf hlimit
      have hrest (a : α) := ih (l := a :: l) (hlimit.imp_right fun h => by omega) hfeed hf.2
      have hresult : (l.reverse ++ ·) <$> (Trace.bind (.item tuple w) fun tuple =>
          .attempt (r tuple) .one).result = (do
            let a ← r tuple
            ((a :: l).reverse ++ ·) <$>
              (w.bind fun tuple => .attempt (r tuple) .one).result) := by
        rw [Trace.item_bind]
        cases r tuple with
        | error e => rfl
        | ok a =>
          cases hd : (w.bind fun tuple => .attempt (r tuple) .one).result with
          | error e => simp [Trace.one, Trace.result, hd, Bind.bind, Except.bind]
          | ok l => simp [Trace.one, Trace.result, hd, Bind.bind, Except.bind]
      rw [hresult]
      refine (Gives.lift (I := (· = feed')) hf.1 rfl).bind_of ?_
      rintro a _ _ rfl
      exact hrest a

variable (before) in
/-- Opening the clauses before, gathering all their tuples, and closing them. -/
theorem gives_gatherAll {F : Filter ℕ} {evs : ℕ → Evaluator} {g : ℕ → Tuple → Engine α}
    (h : Follows K F L env evs M) (hc : context.Known K.marks)
    (hf : ∀ tuple, Tends F L env (fun j => g j tuple) (f tuple)) :
    ∀ᶠ j in F, ∀ feed, before.Shapes K feed →
      Gives L env ((evs j).gatherAll (g j) context) feed (before.Shapes K)
        (Meaning.gathered f env (M.feed env context before)) := by
  filter_upwards [h.feed before context hc, h.limit (M.feed env context before).toList.length,
    eventually_forall_mem (l := (M.feed env context before).toList) fun tuple => (hf tuple).2]
    with j hfeed hl hj feed hs
  obtain ⟨e, he, hx⟩ | hx := hfeed.opens feed hs
  · rw [Meaning.gathered, he]
    exact gives_error.mpr (.bind hx)
  · refine .bind (hx.mono (fun _ feed' hw => ?_) fun _ => id)
    have hall := gives_gatherTuples (l := []) hl hw hj
    have hclosed := hall.bind_of (I := before.Shapes K) (e := pure)
      (k := fun gathered => do
        closeFeed
        return gathered)
      fun gathered s _ hs => .bind (.bind (.read (.bind (.write (ensures_lift fun _ => .pure hs.closed)))))
    rw [bind_pure] at hclosed
    simpa [Meaning.gathered] using hclosed

theorem pulls_orderBy {keys : List (OrderKey Plan)} {feed : Feed} (hf : before.Shapes K feed)
    (sorted : List Tuple) :
    Pulls L env ev.pullClause ((ClauseOperation.orderBy keys).Shapes K position before)
      (.orderBy keys sorted feed) (.ofList sorted) := by
  induction sorted with
  | nil => exact ⟨.orderBy hf, .bind (.read (.pure ⟨rfl, .orderBy hf⟩))⟩
  | cons t rest ih =>
    exact ⟨.orderBy hf, .bind (.read (.bind (.write (.pure ⟨rfl, ih⟩))))⟩

theorem pulls_groupBy {keys : List (GroupKey Plan)} {feed : Feed} (hf : before.Shapes K feed)
    (groups : List Tuple) :
    Pulls L env ev.pullClause ((ClauseOperation.groupBy keys).Shapes K position before)
      (.groupBy keys position groups feed) (.ofList groups) := by
  induction groups with
  | nil => exact ⟨.groupBy hf, .bind (.read (.pure ⟨rfl, .groupBy hf⟩))⟩
  | cons t rest ih =>
    exact ⟨.groupBy hf, .bind (.read (.bind (.write (.pure ⟨rfl, ih⟩))))⟩

theorem Follows.startOrderBy {F : Filter ℕ} {evs : ℕ → Evaluator} (h : Follows K F L env evs M)
    (hc : context.Known K.marks) (keys : List (OrderKey Plan)) :
    ∀ᶠ j in F, ∀ n, (ClauseOperation.orderBy keys).Shapes K position before n →
      StartsClause K L env (evs j) context position before (.orderBy keys) n
        (M.clauseItems env context position before (.orderBy keys)) := by
  filter_upwards [gives_gatherAll before h hc
    (g := fun j => (evs j).plans.keyedTuple keys context) fun tuple => h.plans.keyedTuple keys tuple] with j hj n hn
  obtain _ | _ | _ | ⟨hf⟩ := hn
  refine .of_step (fun Q E h => .bind (.read h)) ?_
  simp only [Meaning.clauseItems, Engine.trace, Trace.attempt_ofResult]
  refine .ofResult (T := before.Shapes K) ((hj _ hf).bind_of fun keyed s _ hs => ?_)
    fun sorted feed hs => .write (pulls_orderBy hs sorted)
  rw [Engine.result_bind fun _ _ _ => rfl, Engine.result_ofResult]
  exact (Gives.ofResult hs).bind_of fun sorted s _ hs => .pure hs

theorem Follows.startGroupBy {F : Filter ℕ} {evs : ℕ → Evaluator} (h : Follows K F L env evs M)
    (hc : context.Known K.marks) (keys : List (GroupKey Plan)) :
    ∀ᶠ j in F, ∀ n, (ClauseOperation.groupBy keys).Shapes K position before n →
      StartsClause K L env (evs j) context position before (.groupBy keys) n
        (M.clauseItems env context position before (.groupBy keys)) := by
  filter_upwards [gives_gatherAll before h hc
    (g := fun j => (evs j).plans.groupedTuple keys position context)
    fun tuple => h.plans.groupedTuple keys position tuple] with j hj n hn
  obtain _ | _ | _ | _ | ⟨hf⟩ := hn
  refine .of_step (fun Q E h => .bind (.read h)) ?_
  simp only [Meaning.clauseItems, Engine.trace, Trace.attempt_ofResult]
  refine .ofResult (T := before.Shapes K) ((hj _ hf).bind_of fun pairs s _ hs => ?_)
    fun groups feed hs => .write (pulls_groupBy hs groups)
  exact .lift (PlanEvaluator.Follows.linearized (F := F) (L := L) keys position pairs).1.answers hs

end

/-! ## All clauses -/

theorem Follows.startClause {F : Filter ℕ} {evs : ℕ → Evaluator} (h : Follows K F L env evs M)
    (hc : context.Known K.marks) (operation : ClauseOperation) (position : SourcePosition)
    (before : Pipeline) :
    ∀ᶠ j in F, ∀ n, operation.Shapes K position before n →
      StartsClause K L env (evs j) context position before operation n
        (M.clauseItems env context position before operation) := by
  have hfeed := h.feed before context hc
  have hlimit := h.limit ((M.feed env context before).toList.length + 1)
  cases operation with
  | forEach name place allowingEmpty source =>
    filter_upwards [hfeed, hlimit, eventually_forall_mem
      (l := (M.feed env context before).toList) fun tuple => h.plan source (tuple.scope context) (tuple.known_scope context)]
      with j hfeed hl hkeeps n hn
    exact starts_forEach (v := ⟨name, place⟩) hfeed hkeeps hl hn
  | letBe name value =>
    filter_upwards [hfeed, eventually_forall_mem (l := (M.feed env context before).toList)
      fun tuple => (h.plans.value (tuple.known_scope context) value).2] with j hfeed hv n hn
    exact starts_letBe hfeed hv hn
  | keepWhere condition =>
    filter_upwards [hfeed, hlimit, eventually_forall_mem (l := (M.feed env context before).toList)
      fun tuple => (h.plans.truth (tuple.known_scope context) condition).2]
      with j hfeed hl hv n hn
    exact starts_keepWhere hfeed hv (hl.imp_right fun h => by omega) hn
  | orderBy keys => exact h.startOrderBy hc keys
  | groupBy keys => exact h.startGroupBy hc keys
  | count name =>
    filter_upwards [hfeed] with j hfeed n hn
    exact starts_count hfeed hn

theorem Follows.clauseCollection_steady {F : Filter ℕ} {evs : ℕ → Evaluator}
    (h : Follows K F L env evs M) (hc : context.Known K.marks) (operation : ClauseOperation)
    (position : SourcePosition) (before : Pipeline) :
    (M.clauseCollection context position before operation).Steady env := by
  have hrows := h.feedRows before context hc
  cases operation with
  | forEach name place allowingEmpty source =>
    simp only [Meaning.clauseCollection]
    split
    · exact Tends.steady_bind (h.rows source context hc) fun rows _ => rfl
    · exact Tends.steady_bind hrows fun tuples => (PlanEvaluator.Follows.expandedRows _ _
        fun t _ => h.plans.evaluate source (t.scope context) (t.known_scope context)).1
  | letBe name value =>
    exact Tends.steady_bind hrows fun tuples => (h.plans.boundRows name value tuples).1
  | keepWhere condition =>
    exact Tends.steady_bind hrows fun tuples => (h.plans.keptRows condition tuples).1
  | orderBy keys => exact Tends.steady_bind hrows fun tuples => (h.plans.sortedRows keys tuples).1
  | groupBy keys =>
    exact Tends.steady_bind hrows fun tuples => (h.plans.shuffled keys position tuples).1
  | count name => exact Tends.steady_bind hrows fun tuples _ => rfl

variable (before) in
/-- What a clause makes of the distributed tuples of the clauses before. -/
theorem Follows.overRows {F : Filter ℕ} {evs : ℕ → Evaluator} (h : Follows K F L env evs M)
    (hc : context.Known K.marks) {f : ℕ → Collection Tuple → Engine (Collection Tuple)}
    {g : Collection Tuple → Engine (Collection Tuple)}
    (hf : ∀ tuples, Tends F L env (fun j => f j tuples) (g tuples)) :
    ∀ᶠ j in F, ∀ feed, before.Shapes K feed →
      Gives L env (do
        let tuples ← (evs j).feedRows context
        Step.lift (f j tuples)) feed (before.Shapes K)
        ((do g (← M.feedRows context before) : Engine _).result env) := by
  filter_upwards [h.feed before context hc,
    eventually_of_ok fun tuples (_ : (M.feedRows context before).result env = .ok tuples) =>
      (hf tuples).2] with j hfeed hj feed hs
  rw [Engine.result_bind fun tuples _ => (hf tuples).1]
  exact (hfeed.rows feed hs).bind_of fun tuples s hd hs => .lift (hj tuples hd) hs

/-- The distributed form of a `for` clause. -/
theorem Follows.forRows {F : Filter ℕ} {evs : ℕ → Evaluator} (h : Follows K F L env evs M)
    (hc : context.Known K.marks) (v : ForVariables) (allowingEmpty : Bool) (source : Plan)
    (position : SourcePosition) :
    ∀ᶠ j in F, ∀ feed c, before.Shapes K feed → source.Shapes K c →
      Gives L env ((evs j).forRows v allowingEmpty c context) feed (before.Shapes K)
        ((M.clauseCollection context position before
          (.forEach v.item v.place allowingEmpty source)).result env) := by
  have hitems := eventually_of_ok fun tuples
    (_ : (M.feedRows context before).result env = .ok tuples) =>
      eventually_forall_mem (l := tuples.records) fun t =>
        (h.plan source (t.scope context) (t.known_scope context)).and
          (h.limit (M.items env (t.scope context) source).toList.length)
  filter_upwards [h.plan source context hc, h.feed before context hc, hitems]
    with j hsource hfeed hitems feed c hf hs
  have hmode : c.mode = source.mode := hs.shaped.mode_eq
  -- not a first `for` over a distributed source
  have hexpanded : Gives L env (do
      let tuples ← (evs j).feedRows context
      Step.lift (PlanEvaluator.expandedRows v allowingEmpty ((evs j).itemsOf c) context tuples))
      feed (before.Shapes K)
      (Engine.result (do
        let tuples ← M.feedRows context before
        PlanEvaluator.expandedRows v allowingEmpty (M.plans.evaluate source) context tuples) env) := by
    rw [Engine.result_bind fun tuples _ => (PlanEvaluator.Follows.expandedRows _ _
      fun t _ => h.plans.evaluate source (t.scope context) (t.known_scope context)).1]
    refine (hfeed.rows feed hf).bind_of fun tuples s hd hs' => .lift ?_ hs'
    refine (Tends.pure_iff.mp (PlanEvaluator.Follows.expandedRows v allowingEmpty fun t ht =>
      Tends.pure_iff.mpr ⟨(h.plans.evaluate source (t.scope context) (t.known_scope context)).1, ?_⟩)).2
    have ⟨hkeeps, hl⟩ := hitems tuples hd t ht
    rw [Meaning.plans, Engine.result_given]
    exact hkeeps.itemsOf hl hs
  refine .bind (.read ?_)
  rw [hmode]
  cases hf with
  | clause => exact hexpanded
  | start =>
    cases hm : source.mode.isParallel with
    | false =>
      simp only [Meaning.clauseCollection, hm]
      exact hexpanded
    | true =>
      simp only [Meaning.clauseCollection, hm]
      rw [Engine.result_bind fun _ _ _ => rfl]
      exact (Gives.lift (hsource.rows c hs).eval .start).bind_of fun rows s _ hs => .pure hs

theorem Follows.collectClause {F : Filter ℕ} {evs : ℕ → Evaluator} (h : Follows K F L env evs M)
    (hc : context.Known K.marks) (operation : ClauseOperation) (position : SourcePosition)
    (before : Pipeline) :
    ∀ᶠ j in F, ∀ n, operation.Shapes K position before n →
      Gives L env ((evs j).collectClause context) n (operation.Shapes K position before)
        ((M.clauseCollection context position before operation).result env) := by
  cases operation with
  | forEach name place allowingEmpty source =>
    filter_upwards [h.forRows hc ⟨name, place⟩ allowingEmpty source position] with j hj n hn
    obtain ⟨hs, hf⟩ := hn
    exact .bind (.read ((hj _ _ hf hs.released).whole fun feed hf => .forEach hs hf))
  | letBe name value =>
    filter_upwards [h.overRows before hc fun tuples =>
      h.plans.boundRows name value tuples] with j hj n hn
    obtain _ | ⟨hf⟩ := hn
    exact .bind (.read ((hj _ hf).whole fun feed hf => .letBe hf))
  | keepWhere condition =>
    filter_upwards [h.overRows before hc fun tuples =>
      h.plans.keptRows condition tuples] with j hj n hn
    obtain _ | _ | ⟨hf⟩ := hn
    exact .bind (.read ((hj _ hf).whole fun feed hf => .keepWhere hf))
  | orderBy keys =>
    filter_upwards [h.overRows before hc fun tuples =>
      h.plans.sortedRows keys tuples] with j hj n hn
    obtain _ | _ | _ | ⟨hf⟩ := hn
    exact .bind (.read ((hj _ hf).whole fun feed hf => .orderBy hf))
  | groupBy keys =>
    filter_upwards [h.overRows before hc fun tuples =>
      h.plans.shuffled keys position tuples] with j hj n hn
    obtain _ | _ | _ | _ | ⟨hf⟩ := hn
    exact .bind (.read ((hj _ hf).whole fun feed hf => .groupBy hf))
  | count name =>
    filter_upwards [h.feed before context hc] with j hj n hn
    obtain _ | _ | _ | _ | _ | ⟨hf⟩ := hn
    rename_i counter feed
    have hrows : Gives L env ((evs j).countRows name context) feed (before.Shapes K)
        (Engine.result (do return countedRows name (← M.feedRows context before)) env) := by
      rw [Engine.result_bind fun _ _ _ => rfl]
      exact (hj.rows _ hf).bind_of fun tuples s _ hs => .pure hs
    exact .bind (.read (hrows.whole fun feed hf => .count hf))

end Evaluator
end HybridQuery
