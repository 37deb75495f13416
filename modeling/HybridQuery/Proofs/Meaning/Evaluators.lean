import HybridQuery.Proofs.Meaning.Basic
import HybridQuery.Proofs.Meaning.Evaluations
import HybridQuery.Proofs.Meaning.Shape

/-!
# Evaluators that follow a meaning

* `Evaluator.KeepsPlan`, `Evaluator.KeepsFeed`: driving the cursors of a plan, or of a chain of clauses,
  gives what a meaning says.
* `Evaluator.Follows`: from some depth on evaluators do so for every plan and context.
* `Evaluator.FollowsNodes.driven`: it is enough that nodes do what a meaning of nodes says.
* `Evaluator.Follows.plans`: then plans are evaluated as the meaning evaluates them.
-/

namespace HybridQuery

open Filter

/-- The nodes of a plan. -/
def Plan.Kind (K : Memory) (p : Plan) (n : Node) : Prop := p.operation.Shapes K.below p.position n

theorem Plan.Shapes.shaped {K : Memory} {p : Plan} {c : ItemCursor} (h : p.Shapes K c) :
    c.Shaped p.mode p.position (p.Kind K) (K.top.items p) := by
  obtain ⟨hm, hp, hn, hh, hv⟩ := h
  exact ⟨hm, hp, hn, hh, hv⟩

theorem Plan.Shapes.of_shaped {K : Memory} {p : Plan} {c : ItemCursor}
    (h : c.Shaped p.mode p.position (p.Kind K) (K.top.items p)) : p.Shapes K c := by
  obtain ⟨mode, position, operation⟩ := p
  exact .mk h.mode_eq h.position_eq h.node h.host h.memo

theorem Operation.Shapes.kind {K : Memory} (operation : Operation) (position : SourcePosition) :
    NodeKind operation.name (operation.Shapes K position) where
  name n h := by cases h <;> rfl
  closed n h := h.closed

theorem Plan.Shapes.released {K : Memory} {p : Plan} {c : ItemCursor} (h : p.Shapes K c) :
    p.Shapes K c.closed :=
  .of_shaped (h.shaped.released (Operation.Shapes.kind p.operation p.position))

theorem ClauseOperation.Shapes.kind {K : Memory} (operation : ClauseOperation)
    (position : SourcePosition) (before : Pipeline) :
    NodeKind operation.name (operation.Shapes K position before) where
  name n h := by cases h <;> rfl
  closed n h := h.closed

theorem Engine.Steady.distributed {env : Environment} {α : Type} {x : Engine (Collection α)}
    (h : x.Steady env) (name : String) (mode : Mode) (position : SourcePosition) :
    (Run.distributed name mode position x).Steady env := by
  unfold Run.distributed
  split
  · exact fun _ => rfl
  · exact ((Tends.of_steady (F := ⊥) (L := True) h).locate position).1

theorem Engine.Steady.columnar {env : Environment} {x : Engine (Frame Item)} (h : x.Steady env)
    (name : String) (mode : Mode) (position : SourcePosition) :
    (Run.columnar name mode position x).Steady env := by
  unfold Run.columnar
  split
  · exact fun _ => rfl
  · exact ((Tends.of_steady (F := ⊥) (L := True) h).locate position).1

/-- The distributed forms that a meaning lets cursors keep: those that it says, in the contexts that
handles stand for. -/
def Meaning.memos (marks : Nat → List Bindings) (L : Prop) (env : Environment) (M : Meaning) :
    Memos where
  items p handle rows := StandsFor L ((M.rows p ⟨some handle, marks handle⟩).result env) rows
  tuples mode position operation before handle rows := StandsFor L
    ((M.clauseRows mode position operation before ⟨some handle, marks handle⟩).result env) rows

/-- What cursors may keep by a meaning of nodes, over what the cursors below may keep. -/
def Memory.over (K : Memory) (L : Prop) (env : Environment) (N : NodeMeaning) : Memory :=
  K.under (N.driven.memos K.marks L env)

namespace Evaluator

section
variable (K : Memory) (L : Prop) (env : Environment) (ev : Evaluator) (M : Meaning)

/-- Driving the cursors of a plan in a context gives what a meaning says. -/
structure KeepsPlan (p : Plan) (context : Context) : Prop where
  opens : ∀ c, p.Shapes K c → ev.items.Yields p.mode p.position (p.Kind K) (K.top.items p) L env
    (ev.items.openIn context) c () (M.items env context p)
  resets : ∀ c, p.Shapes K c → ev.items.Yields p.mode p.position (p.Kind K) (K.top.items p) L env
    (ev.items.reset context) c () (M.items env context p)
  rows : ∀ c, p.Shapes K c →
    Gives L env (ev.items.collection context) c (p.Shapes K) ((M.rows p context).result env)
  frame : ∀ c, p.Shapes K c → Answers L env (ev.frameOf c context) ((M.frame p context).result env)

/-- Driving the cursors of a chain of clauses in a context gives what a meaning says. -/
structure KeepsFeed (p : Pipeline) (context : Context) : Prop where
  opens : ∀ feed, p.Shapes K feed →
    Starts L env (ev.openFeed context) ev.nextTuple (p.Shapes K) feed (M.feed env context p)
  rows : ∀ feed, p.Shapes K feed →
    Gives L env (ev.feedRows context) feed (p.Shapes K) ((M.feedRows context p).result env)

end

/-- Opening a cursor of a plan and handing it out. -/
theorem KeepsPlan.starts {K : Memory} {L : Prop} {env : Environment} {ev : Evaluator} {M : Meaning}
    {p : Plan} {context : Context} (h : ev.KeepsPlan K L env M p context) {c : ItemCursor}
    (hs : p.Shapes K c) :
    Starts L env (ev.items.openIn context) ev.items.next?
      (fun c => p.Shapes K c ∧ c.isOpen = true) c (M.items env context p).ahead := by
  obtain ⟨f, hf, hx⟩ | hx := h.opens c hs
  · exact .inl ⟨f, by rw [hf]; rfl, hx⟩
  · exact .inr (hx.mono (fun _ _ h => h.2.pulls_open.mono fun _ h => ⟨.of_shaped h.1, h.2⟩)
      fun _ => id)

section
variable (K : Memory) (F : Filter ℕ) (L : Prop) (env : Environment) (evs : ℕ → Evaluator)

/-- Evaluators that follow a meaning, whatever cursors keep that may be kept. -/
structure Follows (M : Meaning) : Prop where
  plan : ∀ p context, context.Known K.marks → ∀ᶠ j in F, (evs j).KeepsPlan K L env M p context
  feed : ∀ p context, context.Known K.marks → ∀ᶠ j in F, (evs j).KeepsFeed K L env M p context
  rows : ∀ p context, context.Known K.marks → (M.rows p context).Steady env
  frame : ∀ p context, context.Known K.marks → (M.frame p context).Steady env
  feedRows : ∀ p context, context.Known K.marks → (M.feedRows context p).Steady env
  limit : ∀ n, ∀ᶠ j in F, L ∨ n < (evs j).limit

/-- Evaluators whose nodes follow a meaning of nodes, over cursors that keep what may be kept. -/
structure FollowsNodes (N : NodeMeaning) : Prop where
  items : ∀ (operation : Operation) position context, context.Known K.marks → ∀ᶠ j in F,
    ∀ n, operation.Shapes K position n →
      Starts L env ((evs j).items.start context) (evs j).items.pull (operation.Shapes K position) n
        (N.items env context position operation)
  rows : ∀ mode (operation : Operation) position context, context.Known K.marks → ∀ᶠ j in F,
    ∀ n, operation.Shapes K position n →
      Gives L env ((evs j).items.collect mode context) n (operation.Shapes K position)
        ((N.rows mode context operation).result env)
  frame : ∀ (operation : Operation) position context, context.Known K.marks → ∀ᶠ j in F,
    ∀ n, operation.Shapes K position n →
      Answers L env ((evs j).frame n context) ((N.frame context operation).result env)
  clause : ∀ (operation : ClauseOperation) position before context, context.Known K.marks →
    ∀ᶠ j in F, ∀ n, operation.Shapes K position before n →
      Starts L env ((evs j).tuples.start context) (evs j).tuples.pull
        (operation.Shapes K position before) n (N.clause env context position before operation)
  clauseRows : ∀ mode (operation : ClauseOperation) position before context,
    context.Known K.marks → ∀ᶠ j in F, ∀ n, operation.Shapes K position before n →
      Gives L env ((evs j).tuples.collect mode context) n (operation.Shapes K position before)
        ((N.clauseRows context position before operation).result env)
  rows_steady : ∀ mode operation context, context.Known K.marks →
    (N.rows mode context operation).Steady env
  frame_steady : ∀ operation context, context.Known K.marks →
    (N.frame context operation).Steady env
  clauseRows_steady : ∀ operation position before context, context.Known K.marks →
    (N.clauseRows context position before operation).Steady env
  limit : ∀ n, ∀ᶠ j in F, L ∨ n < (evs j).limit

end

variable {K : Memory} {F : Filter ℕ} {L : Prop} {env : Environment} {evs : ℕ → Evaluator}

/-! ## From nodes to plans -/

/-- The node of a plan in its mode. -/
theorem FollowsNodes.drivenPlan {N : NodeMeaning} (h : FollowsNodes K F L env evs N) (p : Plan)
    (context : Context) (hc : context.Known K.marks) :
    ∀ᶠ j in F, (evs j).items.Driven p.name p.mode p.position (p.Kind (K.over L env N))
      ((K.over L env N).top.items p) L env context (N.items env context p.position p.operation)
      (N.rows p.mode context p.operation) := by
  filter_upwards [h.items p.operation p.position context hc,
    h.rows p.mode p.operation p.position context hc] with j hi hr
  refine ⟨Operation.Shapes.kind p.operation p.position, fun handle hh rows => ?_, fun _ => hi,
    fun _ => hr⟩
  obtain ⟨mode, position, operation⟩ := p
  rw [hc.eq_marked hh]
  exact Iff.rfl

/-- The node of a clause in its mode. -/
theorem FollowsNodes.drivenClause {N : NodeMeaning} (h : FollowsNodes K F L env evs N) (mode : Mode)
    (position : SourcePosition) (operation : ClauseOperation) (before : Pipeline)
    (context : Context) (hc : context.Known K.marks) :
    ∀ᶠ j in F, (evs j).tuples.Driven operation.name mode position
      (operation.Shapes K position before)
      ((K.over L env N).top.tuples mode position operation before) L env
      context (N.clause env context position before operation)
      (N.clauseRows context position before operation) := by
  filter_upwards [h.clause operation position before context hc,
    h.clauseRows mode operation position before context hc] with j hi hr
  refine ⟨ClauseOperation.Shapes.kind operation position before, fun handle hh rows => ?_,
    fun _ => hi, fun _ => hr⟩
  rw [hc.eq_marked hh]
  exact Iff.rfl

theorem FollowsNodes.keepsPlan {N : NodeMeaning} (h : FollowsNodes K F L env evs N) (p : Plan)
    (context : Context) (hc : context.Known K.marks) :
    ∀ᶠ j in F, (evs j).KeepsPlan (K.over L env N) L env N.driven p context := by
  filter_upwards [h.drivenPlan p context hc, h.frame p.operation p.position context hc]
    with j hd hf
  obtain ⟨mode, position, operation⟩ := p
  refine ⟨fun c hs => hd.openIn hs.shaped, fun c hs => hd.reset hs.shaped, fun c hs => ?_,
    fun c hs => ?_⟩
  · exact (hd.collection hs.shaped).mono fun c => .of_shaped
  · have hshaped := hs.shaped
    have hname : c.name = operation.name := (Operation.Shapes.kind _ _).name _ hshaped.node
    have hmode : c.mode = mode := hshaped.mode_eq
    have hposition : c.position = position := hshaped.position_eq
    rw [frameOf, hname, hmode, hposition]
    change Answers L env _ ((Run.columnar operation.name mode position _).result env)
    rw [Run.columnar]
    cases mode.isColumnar with
    | false => exact .inr fun r => .inl rfl
    | true =>
      have : Answers L env (Run.locate _ position) _ := (hf c.node hshaped.node).locate
      rwa [← Engine.result_locate] at this

theorem FollowsNodes.keepsFeed {N : NodeMeaning} (h : FollowsNodes K F L env evs N) (p : Pipeline)
    (context : Context) (hc : context.Known K.marks) :
    ∀ᶠ j in F, (evs j).KeepsFeed (K.over L env N) L env N.driven p context := by
  cases p with
  | start =>
    refine .of_forall fun j => ⟨fun feed hs => .inr ?_, fun feed hs => ?_⟩
    · cases hs
      refine .bind (.read (.write ⟨.start, .bind (.read (.bind (.write (.pure ⟨rfl, .start, ?_⟩))))⟩))
      exact .bind (.read (.bind (.write (.pure ⟨rfl, .start⟩))))
    · cases hs
      exact .bind (.read (.pure .start))
  | clause mode position operation before =>
    filter_upwards [h.drivenClause mode position operation before context hc] with j hd
    have hshapes (c : TupleCursor) (hc : c.Shaped mode position (operation.Shapes K position before)
        ((K.over L env N).top.tuples mode position operation before)) :
        Pipeline.Shapes (K.over L env N) (.clause mode position operation before) (.clause c) :=
      .clause hc.mode_eq hc.position_eq hc.node hc.host hc.memo
    have hnext (c : TupleCursor) (t : Trace Tuple)
        (hh : (evs j).tuples.Holding mode position (operation.Shapes K position before)
          ((K.over L env N).top.tuples mode position operation before) L env c t) :
        Pulls L env (evs j).nextTuple
          (Pipeline.Shapes (K.over L env N) (.clause mode position operation before))
          (.clause c) t.ahead := by
      refine hh.pulls.through hshapes fun c Q E _ h => .bind (.read ?_)
      refine .bind (.part (h.mono (fun _ _ h => ?_) fun _ => id))
      exact .pure h
    refine ⟨fun feed hs => ?_, fun feed hs => ?_⟩
    · obtain _ | ⟨hm, hp, hn, hh, hv⟩ := hs
      obtain ⟨f, hf, hx⟩ | hx := hd.openIn ⟨hm, hp, hn, hh, hv⟩
      · refine .inl ⟨f, (congrArg Trace.ahead hf).trans rfl, .after (.read (.bind (.part hx)))⟩
      · refine .inr (.bind (.read (.bind (.part (hx.mono ?_ fun _ => id)))))
        rintro - c' ⟨-, hh⟩
        exact .pure (hnext c' _ hh)
    · obtain _ | ⟨hm, hp, hn, hh, hv⟩ := hs
      exact .bind (.read ((hd.collection ⟨hm, hp, hn, hh, hv⟩).whole hshapes))

/-- Evaluators of plans follow what their nodes follow. -/
theorem FollowsNodes.driven {N : NodeMeaning} (h : FollowsNodes K F L env evs N) :
    Follows (K.over L env N) F L env evs N.driven where
  plan := h.keepsPlan
  feed := h.keepsFeed
  rows p context hc := by
    obtain ⟨mode, position, operation⟩ := p
    exact (h.rows_steady mode operation context hc).distributed _ _ _
  frame p context hc := by
    obtain ⟨mode, position, operation⟩ := p
    exact (h.frame_steady operation context hc).columnar _ _ _
  feedRows p context hc := by
    cases p with
    | start => exact fun _ => rfl
    | clause mode position operation before =>
      exact (h.clauseRows_steady operation position before context hc).distributed _ _ _
  limit := h.limit

/-! ## Evaluating plans -/

/-- The items of a cursor of a plan. -/
theorem KeepsPlan.itemsOf {ev : Evaluator} {M : Meaning} {p : Plan} {context : Context}
    (h : ev.KeepsPlan K L env M p context)
    (hl : L ∨ (M.items env context p).toList.length < ev.limit) {c : ItemCursor}
    (hs : p.Shapes K c) :
    Answers L env (ev.itemsOf c context) (M.items env context p).result := by
  refine Gives.eval (I := fun _ => True) ((h.opens c hs).bind ?_ fun c hh => hh.drain hl)
  rintro f hf
  rw [hf]
  rfl

theorem Follows.plans {M : Meaning} (h : Follows K F L env evs M) :
    PlanEvaluator.Follows K.marks F L env (fun j => (evs j).plans) M.plans where
  evaluate p context hc := by
    refine .given ?_
    filter_upwards [h.plan p context hc, h.limit (M.items env context p).toList.length] with j hj hl
    exact hj.itemsOf hl p.shapes_cursor
  rows p context hc := by
    refine ⟨h.rows p context hc, ?_⟩
    filter_upwards [h.plan p context hc] with j hj
    exact (hj.rows _ p.shapes_cursor).eval
  planFrame p context hc := by
    refine ⟨h.frame p context hc, ?_⟩
    filter_upwards [h.plan p context hc] with j hj
    exact hj.frame _ p.shapes_cursor
  firstOnHost p context hc := by
    refine .given ?_
    filter_upwards [h.plan p context hc] with j hj
    refine Gives.eval (I := fun _ => True) ((hj.opens _ p.shapes_cursor).bind ?_ fun c hh => ?_)
    · rintro f hf
      rw [hf]
      rfl
    · have hp := hh.pulls
      cases hu : (M.items env context p).ahead with
      | failed f =>
        rw [hu] at hp
        exact gives_error.mpr (.bind hp.2)
      | done =>
        rw [hu] at hp
        refine .bind (hp.2.mono ?_ fun _ => id)
        rintro o c ⟨rfl, -⟩
        exact .bind (ensures_release (.pure trivial))
      | item a u =>
        rw [hu] at hp
        refine .bind (hp.2.mono ?_ fun _ => id)
        rintro o c ⟨rfl, -⟩
        exact .bind (ensures_release (.pure trivial))
  emptyOnHost p context hc := by
    refine .given ?_
    filter_upwards [h.plan p context hc] with j hj
    refine Gives.eval (I := fun _ => True) ((hj.opens _ p.shapes_cursor).bind ?_ fun c hh => ?_)
    · rintro f hf
      rw [hf]
      rfl
    · rw [hh.hasNext]
      exact .bind (.read (.bind (ensures_release (.pure trivial))))

end Evaluator
end HybridQuery
