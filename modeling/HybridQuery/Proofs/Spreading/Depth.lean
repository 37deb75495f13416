import HybridQuery.Proofs.Spreading.Nodes

/-!
# Spread plans of bounded depth

What spread plans yield at a depth carries over to what the plans yield at that depth, and at every
larger one.

* `Trace.Carries.pulled`, `Engine.Draws.distributed`: a node beside a trace, in whatever mode it is.
* `Meaning.Carries.ofDepth`: by induction on the depth. A part that is handed to `parallelize` is one
  node deeper than the part, so that the depth of the second plan has to be free.
-/

namespace HybridQuery

variable {calls : FunctionKey → Prop} {env' env : Environment}

/-! ## Nodes in their modes -/

section
variable {α' α : Type} {R : α' → α → Prop} {x' : Engine (Collection α')}
  {x : Engine (Collection α)} {t' t : Trace α}

theorem Trace.Carries.locate_left {t' : Trace α'} (h : Trace.Carries R t' t)
    (position : SourcePosition) : Trace.Carries R (t'.locate position) t := by
  induction h with
  | done => exact .done
  | failed f t => exact .failed _ _
  | item head _ ih => exact .item head ih

theorem Trace.Carries.locate_right {t' : Trace α'} (h : Trace.Carries R t' t)
    (position : SourcePosition) : Trace.Carries R t' (t.locate position) := by
  induction h with
  | done => exact .done
  | failed f t => exact .failed f _
  | item head _ ih => exact .item head ih

theorem Engine.Draws.distributed (name : String) {mode : Mode} (position : SourcePosition)
    (h : mode.isParallel = true → Engine.Draws env' R x' t) :
    Engine.Draws env' R (Run.distributed name mode position x') t := by
  unfold Run.distributed
  cases hm : mode.isParallel with
  | false => exact .of_never (.locate .fail _)
  | true => exact Engine.Meets.locate (h hm) position fun _ h => h

/-- Distributed items that are pulled to the host. -/
theorem Engine.Draws.materialized (hcap : env'.materializationCap = none)
    (h : Engine.Draws env' R x' t) (position : SourcePosition) :
    (do Engine.materialize (← x') position : Engine (List α')).Meets env' (fun l' => t.Gives R l')
      fun _ => True :=
  Engine.Meets.bind_of h fun c' hc =>
    (Engine.Meets.materialize hcap c' position).mono fun _ hl => hl ▸ hc

theorem Engine.Meets.trace {y' : Engine (List α')}
    (h : y'.Meets env' (fun l' => t.Gives R l') fun _ => True) :
    Trace.Carries R (y'.trace env') t := by
  unfold Engine.trace
  cases hy : y'.result env' with
  | error f => exact .failed f t
  | ok l' => exact .of_gives (h.of_result hy)

/-- A node carries over to a trace if it does on the host and distributed. -/
theorem Trace.Carries.pulled (hcap : env'.materializationCap = none) (name : String) {mode : Mode}
    (position : SourcePosition) {host' : Trace α'}
    (hhost : mode = .host → Trace.Carries R host' t)
    (hrows : mode.isParallel = true → Engine.Draws env' R x' t) :
    Trace.Carries R
      (Trace.pulled env' name mode position host' (Run.distributed name mode position x')) t := by
  cases mode with
  | unset => exact .failed _ _
  | host => exact (hhost rfl).locate_left position
  | rows | columns =>
    exact Engine.Meets.trace ((Engine.Draws.distributed name position hrows).materialized hcap position)

theorem Engine.Carries.locate_left (h : Engine.Carries env' env (Collection.Like R) x' x)
    (position : SourcePosition) :
    Engine.Carries env' env (Collection.Like R) (Run.locate x' position) x :=
  fun r => Engine.Meets.locate (h r) position fun _ h => h

theorem Engine.Carries.distributed (h : Engine.Carries env' env (Collection.Like R) x' x)
    (name' name : String) (position' position : SourcePosition) :
    Engine.Carries env' env (Collection.Like R) (Run.distributed name' .rows position' x')
      (Run.distributed name .rows position x) := h.locate position' position

end

theorem Engine.Never.distributed {name : String} {mode : Mode} {position : SourcePosition}
    {α : Type} {x : Engine (Collection α)} (h : Engine.Never env x) :
    Engine.Never env (Run.distributed name mode position x) := by
  unfold Run.distributed
  split
  · exact .locate .fail _
  · exact .locate h _

theorem Engine.Never.columnar {name : String} {mode : Mode} {position : SourcePosition}
    {x : Engine (Frame Item)} (h : Engine.Never env x) :
    Engine.Never env (Run.columnar name mode position x) := by
  unfold Run.columnar
  split
  · exact .locate .fail _
  · exact .locate h _

/-! ## Distributed plans -/

/-- A distributed plan is pulled from its distributed form. -/
theorem NodeMeaning.items_driven (N : NodeMeaning) (env : Environment) (context : Context) {p : Plan}
    (hp : p.mode = .rows) :
    N.driven.items env context p =
      Engine.trace (do Engine.materialize (← N.driven.rows p context) p.position) env := by
  obtain ⟨mode, position, operation⟩ := p
  cases hp
  rfl

section
variable {α' α : Type} {R : α' → α → Prop} {x' : Engine (Collection α')} {x : Engine (Collection α)}
  (hcap' : env'.materializationCap = none) (hcap : env.materializationCap = none)
  (h : Engine.Carries env' env (Collection.Like R) x' x) (position' position : SourcePosition)
include hcap' hcap h

omit hcap' in
/-- A distributed form beside one that is pulled. -/
theorem Engine.Carries.draws_trace :
    Engine.Draws env' R x' (Engine.trace (do Engine.materialize (← x) position) env) := by
  refine (h .empty).mono ?_
  rintro c' ⟨c, s, hx, hc⟩
  obtain ⟨s, hs⟩ := Engine.materialize_ok hcap c position s
  refine ⟨c.records, ?_, hc⟩
  simp only [Engine.trace, Engine.result, Bind.bind, ReaderT.bind, EStateM.bind, hx, hs]
  rfl

/-- Distributed forms that are both pulled. -/
theorem Engine.Carries.trace_trace :
    Trace.Carries R (Engine.trace (do Engine.materialize (← x') position') env')
      (Engine.trace (do Engine.materialize (← x) position) env) :=
  Engine.Meets.trace ((h.draws_trace hcap position).materialized hcap' position')

omit hcap in
/-- A distributed form that is pulled, beside a distributed form. -/
theorem Engine.Carries.given_trace :
    Engine.Carries env' env (fun l' c => List.Forall₂ R l' c.records)
      (Engine.given fun env => (Engine.trace (do Engine.materialize (← x') position') env).result) x := by
  refine fun r => .given (fun l' hl => ?_) fun _ _ => trivial
  have hx : (do Engine.materialize (← x') position' : Engine (List α')).Meets env'
      (fun l' => ∃ c s, x env r = .ok c s ∧ List.Forall₂ R l' c.records) fun _ => True := by
    refine (h r).bind_of fun c' ⟨c, s, hx, hc⟩ => ?_
    exact (Engine.Meets.materialize hcap' c' position').mono fun _ hl => ⟨c, s, hx, hl ▸ hc⟩
  refine hx.of_result ?_
  simp only [Engine.trace, Trace.ofResult] at hl
  generalize Engine.result _ env' = d at hl ⊢
  cases d with
  | error f => cases hl
  | ok l =>
    rw [Trace.attempt_ok, Trace.result_ofList] at hl
    exact hl

end

namespace Meaning.Carries

variable {N' N : NodeMeaning}

/-- The items of a spread plan beside the distributed form of the plan. -/
theorem pulledRows (h : Meaning.Carries calls env' env N'.driven N.driven)
    (hcap' : env'.materializationCap = none) {p' p : Plan} (hp : p'.Spread calls p)
    (hm : p.mode = .rows) {c' c : Context} (hc : Context.Like (Plan.Spread calls) c' c) :
    Engine.Carries env' env (fun l' d => Sequence.Like (Plan.Spread calls) l' d.records)
      (N'.driven.plans.evaluate p' c') (N.driven.rows p c) := by
  have hm' : p'.mode = .rows := by
    rcases hp.spreads with hm' | ⟨hm', -⟩
    · rw [hm] at hm'
      cases hm'
    · exact hm'
  have := (h.rows hp hm hc).given_trace hcap' p'.position
  refine cast (congrArg (fun x => Engine.Carries env' env _ x _) ?_) this
  rw [Meaning.plans]
  congr 1
  funext e
  rw [N'.items_driven e c' hm']

end Meaning.Carries

/-! ## A part that is handed to `parallelize` -/

section
variable {M' M : Meaning} (h : Meaning.Carries calls env' env M' M) {p' p : Plan}
  (hp : p'.Spread calls p) (rest : List Plan) {c' c : Context}
  (hc : Context.Like (Plan.Spread calls) c' c)
include h hp hc

theorem Meaning.Carries.partDrawn :
    Engine.Draws env' (Item.Like (Plan.Spread calls))
      (M'.plans.sourceRows .parallelize (p' :: rest) c') (M.items env c p) := by
  refine Engine.Meets.bind_of (h.evaluated hp hc) fun l' hl => ?_
  refine Engine.Meets.bind_of Engine.Meets.trivial fun n _ => .pure ?_
  rwa [Collection.records_parallelize]

theorem Meaning.Carries.partItems (hcap : env'.materializationCap = none) :
    Trace.Carries (Item.Like (Plan.Spread calls))
      ((M'.plans.compute c' (.builtin .parallelize (p' :: rest))).trace env') (M.items env c p) := by
  refine Engine.Meets.trace (Engine.Meets.bind_of (h.partDrawn hp rest hc) fun rows hrows => ?_)
  exact (Engine.Meets.materialize hcap rows p'.position).mono fun _ hl => hl ▸ hrows

end

theorem Meaning.Carries.partRows {N' N : NodeMeaning}
    (h : Meaning.Carries calls env' env N'.driven N.driven) (hcap : env'.materializationCap = none)
    {p' p : Plan} (hp : p'.Spread calls p) (hm : p.mode = .rows) (rest : List Plan) {c' c : Context}
    (hc : Context.Like (Plan.Spread calls) c' c) :
    Engine.Carries env' env (Collection.Like (Item.Like (Plan.Spread calls)))
      (N'.driven.plans.sourceRows .parallelize (p' :: rest) c') (N.driven.rows p c) := by
  refine (h.pulledRows hcap hp hm hc).then_left fun l' d hl => ?_
  refine Engine.Meets.bind_of Engine.Meets.trivial fun n _ => .pure ?_
  rwa [Collection.Like, Collection.records_parallelize]

/-! ## One level of nodes -/

namespace Meaning.Carries

variable {N' N : NodeMeaning}

/-- Nodes over plans that carry over. A part that is handed to `parallelize` is compared with a plan
of the level above. -/
theorem above (h : Meaning.Carries calls env' env N'.driven N.driven)
    (hnext : Meaning.Carries calls env' env N'.driven (NodeMeaning.above N.driven).driven)
    (he : Environment.Spread (Plan.Spread calls) calls env' env) :
    Meaning.Carries calls env' env (NodeMeaning.above N'.driven).driven
      (NodeMeaning.above N.driven).driven where
  items {p' p c' c} hp hc := by
    cases hp with
    | @node m' m position _ _ mode rows operation =>
      rcases mode trivial with rfl | ⟨rfl, rfl⟩
      · exact (Trace.Carries.pulled he.cap' _ _
          (fun _ => h.operationItems he hc operation position position)
          (fun _ => h.operationDrawn he hc operation m' position)).locate_right position
      · exact ((h.operationRows he hc operation (rows trivial rfl) .rows).distributed _ _ _ _).trace_trace
          he.cap' he.cap position position
    | wrap mode part =>
      exact .pulled he.cap' _ _ (fun _ => hnext.partItems part _ hc he.cap')
        (fun _ => hnext.partDrawn part _ hc)
  drawn {p' p c' c} hp hc := by
    cases hp with
    | @node m' m position op' op mode rows operation =>
      rcases mode trivial with rfl | ⟨rfl, rfl⟩
      · exact (Engine.Draws.distributed _ _ fun _ => h.operationDrawn he hc operation m' position).mono
          fun _ hg => hg.locate position
      · exact ((h.operationRows he hc operation (rows trivial rfl) .rows).distributed op'.name op.name
          position position).draws_trace he.cap position
    | wrap mode part => exact .distributed _ _ fun _ => hnext.partDrawn part _ hc
  rows {p' p c' c} hp hm hc := by
    cases hp with
    | @node m' m position op' op mode rows operation =>
      cases hm
      obtain ⟨rfl, -⟩ := (mode trivial).resolve_left nofun
      exact (h.operationRows he hc operation (rows trivial rfl) .rows).distributed op'.name op.name _ _
    | wrap mode part =>
      obtain ⟨rfl, -⟩ := (mode trivial).resolve_left (by rw [hm]; nofun)
      exact (hnext.partRows he.cap' part hm _ hc).locate_left _
  frame {p' p c' c} hp hc := by
    cases hp with
    | @node m' m position _ _ mode rows operation =>
      exact .columnar (h.operationFrame he hc operation)
    | wrap mode part => exact .columnar .fail
  feed {b' b c' c} hb hc := by
    cases hb with
    | start => exact .one .empty
    | @clause m' m position op' op before' before mode rows operation hb =>
      refine Trace.Carries.ahead ?_
      rcases mode trivial with rfl | ⟨rfl, rfl⟩
      · exact (Trace.Carries.pulled he.cap' _ _
          (fun _ => h.clauseItems hc he operation hb position position)
          (fun hm => h.clauseDrawn hc (by rintro rfl; cases hm) operation hb position
            position)).locate_right position
      · exact ((h.clauseRows hc operation hb (rows trivial rfl) position position).distributed _ _ _
          _).trace_trace he.cap' he.cap position position
  feedDrawn {b' b c' c} hb hc := by
    cases hb with
    | start => exact .pure (.one .empty)
    | @clause m' m position op' op before' before mode rows operation hb =>
      refine Engine.Draws.ahead ?_
      rcases mode trivial with rfl | ⟨rfl, rfl⟩
      · exact (Engine.Draws.distributed _ _ fun hm =>
          h.clauseDrawn hc (by rintro rfl; cases hm) operation hb position position).mono
            fun _ hg => hg.locate position
      · exact ((h.clauseRows hc operation hb (rows trivial rfl) position position).distributed op'.name
          op.name position position).draws_trace he.cap position
  feedRows {b' b c' c} hb hd hc := by
    cases hb with
    | start => exact .pure (.cons .empty .nil)
    | @clause m' m position op' op before' before mode rows operation hb =>
      have hm : m = .rows ∧ m' = .rows := by
        rcases mode trivial with rfl | ⟨rfl, rfl⟩
        · cases hd
        · exact ⟨rfl, rfl⟩
      obtain ⟨rfl, rfl⟩ := hm
      exact (h.clauseRows hc operation hb (rows trivial rfl) position position).distributed op'.name op.name
        position position

/-- Nodes that are exhausted at once carry over to anything. -/
theorem giveUp (hcap : env'.materializationCap = none) (N : NodeMeaning) :
    Meaning.Carries calls env' env NodeMeaning.giveUp.driven N.driven where
  items {p' p c' c} hp hc := by
    obtain ⟨mode, position, operation⟩ := p'
    exact .pulled hcap _ _ (fun _ => .failed _ _) fun _ => .of_never (.exhausted trivial)
  drawn {p' p c' c} hp hc := by
    obtain ⟨mode, position, operation⟩ := p'
    exact .distributed _ _ fun _ => .of_never (.exhausted trivial)
  rows {p' p c' c} hp hm hc := by
    obtain ⟨mode, position, operation⟩ := p'
    exact .of_never (.distributed (.exhausted trivial))
  frame {p' p c' c} hp hc := by
    obtain ⟨mode, position, operation⟩ := p'
    exact .columnar (.exhausted trivial)
  feed {b' b c' c} hb hc := by
    cases hb with
    | start => exact .one .empty
    | clause =>
      exact (Trace.Carries.pulled hcap _ _ (fun _ => .failed _ _)
        fun _ => .of_never (.exhausted trivial)).ahead
  feedDrawn {b' b c' c} hb hc := by
    cases hb with
    | start => exact .pure (.one .empty)
    | clause => exact .distributed _ _ fun _ => .of_never (.exhausted trivial)
  feedRows {b' b c' c} hb hd hc := by
    cases hb with
    | start => exact .pure (.cons .empty .nil)
    | clause => exact .of_never (.distributed (.exhausted trivial))

/-- **Spreading is transparent at every depth.** What spread plans yield at a depth, the plans yield at
every depth that is at least as large. -/
theorem ofDepth (he : Environment.Spread (Plan.Spread calls) calls env' env) {n m : Nat}
    (hnm : n ≤ m) : Meaning.Carries calls env' env (Meaning.ofDepth n) (Meaning.ofDepth m) := by
  induction n generalizing m with
  | zero => exact giveUp he.cap' _
  | succ n ih =>
    obtain ⟨m, rfl⟩ : ∃ k, m = k + 1 := ⟨m - 1, by omega⟩
    exact above (ih (m := m) (by omega)) (ih (m := m + 1) (by omega)) he

end Meaning.Carries
end HybridQuery
