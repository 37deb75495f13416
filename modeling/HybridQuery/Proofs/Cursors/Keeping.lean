import HybridQuery.Proofs.Meaning.Adequacy

/-!
# Cursors keep their shape

Whatever is asked of a cursor of a plan, and however that ends, it stays a cursor of the plan, and what
it keeps is what its meaning says. A step that fails half-way may leave parts of a cursor open, but
they are parts of the right shape.

* `Leaves`, `Keeps`: what a step leaves behind, also when it fails. There is one rule for each way to
  combine steps.
* `Rules.Keeping.openIn`, `Rules.Keeping.next` and their like: the protocol keeps the shape of a cursor
  if driving its node does.
* `Evaluator.KeepsNodeShapes.driven`: the same for all cursors of plans and of chains of clauses.
-/

namespace HybridQuery

variable {σ τ υ α β γ : Type} {env : Environment}

/-! ## What steps leave behind -/

/-- `x` run from `s` ends in `Q`, or it fails and leaves a state of `I`. -/
def Leaves (env : Environment) (x : Step σ β) (s : σ) (Q : β → σ → Prop) (I : σ → Prop) : Prop :=
  ∀ r, match x env (s, r) with
    | .ok b s' => Q b s'.1
    | .error _ s' => I s'.1

/-- Run from a state of `I`, `x` leaves a state of `I`, however it ends. -/
def Keeps (env : Environment) (x : Step σ β) (I : σ → Prop) : Prop :=
  ∀ s, I s → Leaves env x s (fun _ => I) I

namespace Leaves

variable {x : Step σ β} {s : σ} {Q Q' : β → σ → Prop} {I I' : σ → Prop}

theorem mono (h : Leaves env x s Q I) (hq : ∀ b s, Q b s → Q' b s) (hi : ∀ s, I s → I' s) :
    Leaves env x s Q' I' := by
  intro r
  have := h r
  cases hx : x env (s, r) with
  | ok b s' => rw [hx] at this; exact hq _ _ this
  | error f s' => rw [hx] at this; exact hi _ this

theorem bind {f : β → Step σ γ} {Q : γ → σ → Prop}
    (h : Leaves env x s (fun b s' => Leaves env (f b) s' Q I) I) : Leaves env (x >>= f) s Q I := by
  intro r
  have := h r
  simp only [Bind.bind, ReaderT.bind, EStateM.bind]
  cases hx : x env (s, r) with
  | ok b s' => rw [hx] at this; exact this s'.2
  | error f s' => rw [hx] at this; exact this

theorem pure {b : β} (h : Q b s) : Leaves env (Pure.pure b : Step σ β) s Q I := fun _ => h

theorem read {Q : σ → σ → Prop} (h : Q s s) : Leaves env Step.read s Q I := fun _ => h

theorem write {t : σ} {Q : Unit → σ → Prop} (h : Q () t) : Leaves env (Step.write t) s Q I :=
  fun _ => h

theorem raise {e : EngineError} (h : I s) : Leaves env (Run.raise e : Step σ β) s Q I := fun _ => h

theorem exhausted (h : I s) : Leaves env (Run.exhausted : Step σ β) s Q I := fun _ => h

theorem ofResult {d : EngineResult β} (hq : ∀ b, Q b s) (hi : I s) :
    Leaves env (Run.ofResult d) s Q I := by
  cases d with
  | ok b => exact .pure (hq b)
  | error e => exact .raise hi

theorem lift {x : Engine β} (hq : ∀ b, Q b s) (hi : I s) : Leaves env (Step.lift x) s Q I := by
  intro r
  simp only [Step.lift]
  cases x env r with
  | ok b r' => exact hq b
  | error f r' => exact hi

theorem locate {position : SourcePosition} (h : Leaves env x s Q I) :
    Leaves env (x.locate position) s Q I := by
  intro r
  have := h r
  simp only [Run.locate]
  cases hx : x env (s, r) with
  | ok b s' => rw [hx] at this; exact this
  | error f s' => rw [hx] at this; exact this

theorem part {whole : υ → τ} {u : υ} {t : τ} {x : Step υ β} {Q : β × υ → τ → Prop} {I : τ → Prop}
    (h : Leaves env x u (fun b u' => Q (b, u') (whole u')) fun u' => I (whole u')) :
    Leaves env (Step.part whole u x) t Q I := by
  intro r
  have := h r
  simp only [Step.part]
  cases hx : x env (u, r) with
  | ok b s' => rw [hx] at this; exact this
  | error f s' => rw [hx] at this; exact this

theorem onFailure {cleanUp : Step σ Unit}
    (h : Leaves env x s Q fun s' => Leaves env cleanUp s' (fun _ => I) I) :
    Leaves env (x.onFailure cleanUp) s Q I := by
  intro r
  have := h r
  cases hx : x env (s, r) with
  | ok b s' =>
    rw [hx] at this
    simpa only [Run.onFailure, hx] using this
  | error f s' =>
    rw [hx] at this
    have hleft := this s'.2
    cases hc : cleanUp env s' with
    | ok b s'' =>
      rw [hc] at hleft
      simpa only [Run.onFailure, hx, hc] using hleft
    | error g s'' =>
      rw [hc] at hleft
      simpa only [Run.onFailure, hx, hc] using hleft

/-- What a step gives that does not give up early is what it leaves behind if it succeeds. -/
theorem of_gives {d : Except Failure β} (h : Leaves env x s (fun _ _ => True) I)
    (hd : Gives True env x s I d) : Leaves env x s (fun _ => I) I := by
  intro r
  have hleft := h r
  cases hx : x env (s, r) with
  | error f s' => rw [hx] at hleft; exact hleft
  | ok b s' =>
    cases d with
    | ok b' =>
      have := gives_ok.mp hd r
      rw [hx] at this
      exact this.2
    | error f =>
      obtain ⟨hopen, -⟩ | hfails := gives_error.mp hd
      · exact absurd trivial hopen
      · have := hfails r
        rw [hx] at this
        exact this.elim

end Leaves

namespace Keeps

variable {x : Step σ β} {I : σ → Prop}

theorem trivial : Keeps env x fun _ => True := by
  intro s _ r
  cases x env (s, r) <;> exact True.intro

theorem bind {f : β → Step σ γ} (hx : Keeps env x I) (hf : ∀ b, Keeps env (f b) I) :
    Keeps env (x >>= f) I := fun s hs => .bind ((hx s hs).mono (fun b s' h => hf b s' h) fun _ => id)

theorem pure {b : β} : Keeps env (Pure.pure b : Step σ β) I := fun _ hs => .pure hs

theorem exhausted : Keeps env (Run.exhausted : Step σ β) I := fun _ hs => .exhausted hs

theorem lift {x : Engine β} : Keeps env (Step.lift x) I := fun _ hs => .lift (fun _ => hs) hs

/-- A step on a part of the state, and what follows it. -/
theorem part {whole : υ → τ} {u : υ} {t : τ} {x : Step υ β} {T : υ → Prop} {J : τ → Prop}
    {Q : γ → τ → Prop} {k : β × υ → Step τ γ} (hx : Keeps env x T) (hu : T u)
    (hw : ∀ u, T u → J (whole u)) (hk : ∀ b u, T u → Leaves env (k (b, u)) (whole u) Q J) :
    Leaves env (Step.part whole u x >>= k) t Q J :=
  .bind (.part ((hx u hu).mono hk hw))

/-- A step on a part of the state whose value is handed on. -/
theorem whole {whole : υ → τ} {u : υ} {t : τ} {x : Step υ β} {T : υ → Prop} {J : τ → Prop}
    (hx : Keeps env x T) (hu : T u) (hw : ∀ u, T u → J (whole u)) :
    Leaves env (do
      let (b, _) ← Step.part whole u x
      return b) t (fun _ => J) J :=
  hx.part hu hw fun _ u hu => .pure (hw u hu)

end Keeps

/-! ## The protocol -/

namespace Rules

section
variable {ν : Type} [CursorNode ν] {c : Cursor ν α}

theorem leaves_release {Q : Unit → Cursor ν α → Prop} {I : Cursor ν α → Prop} (hq : Q () c.closed)
    (hi : I c.closed) : Leaves env Cursor.release c Q I :=
  .bind (.read (.bind (.write (.lift (fun _ => hq) hi))))

theorem keeps_next? {r : Rules ν α} {I : Cursor ν α → Prop} (h : Keeps env r.next I) :
    Keeps env r.next? I := by
  intro c hc
  refine .bind (.read ?_)
  cases c.hasNext with
  | true => exact h.bind (fun _ => .pure) c hc
  | false => exact .pure hc

/-- Driving the nodes of a kind keeps them in it, and what is kept of their distributed form may be
kept. -/
structure Keeping (r : Rules ν α) (name : String) (mode : Mode) (position : SourcePosition)
    (S : ν → Prop) (V : Nat → Collection α → Prop) (env : Environment) (context : Context) :
    Prop where
  kind : NodeKind name S
  start : Keeps env (r.start context) S
  pull : Keeps env r.pull S
  collect : Keeps env (r.collect mode context) S
  rows : ∀ c : Cursor ν α, c.Shaped mode position S V → ∃ d, Gives True env (r.collection context) c
    (Cursor.Shaped mode position S V) d

end

namespace Keeping

variable {ν : Type} [CursorNode ν] {r : Rules ν α} {name : String} {mode : Mode}
  {position : SourcePosition} {S : ν → Prop} {V : Nat → Collection α → Prop} {context : Context}

omit [CursorNode ν] in
theorem drive {x : Step ν β} (hx : Keeps env x S) :
    Keeps env (Cursor.drive x : Step (Cursor ν α) β) (Cursor.Shaped mode position S V) := by
  intro c hc
  have hnode (n : ν) (hn : S n) : Cursor.Shaped mode position S V { c with node := n } :=
    ⟨hc.mode_eq, hc.position_eq, hn, hc.host, hc.memo⟩
  exact .bind (.read (hx.part hc.node hnode fun _ n hn => .pure (hnode n hn)))

omit [CursorNode ν] in
/-- The next result leaves the lookahead to who asks for it. -/
theorem advance (hpull : Keeps env r.pull S) :
    Keeps env r.advance (Cursor.Shaped mode position S V) := by
  intro c hc
  refine .bind (.read ?_)
  cases hm : c.materialized with
  | none => exact (drive hpull c hc).locate
  | some l =>
    cases l with
    | nil => exact .pure hc
    | cons a rest =>
      refine .bind (.write (.pure ⟨hc.mode_eq, hc.position_eq, hc.node, fun hmode => ?_, hc.memo⟩))
      have := hc.host hmode
      rw [hm] at this
      cases this

variable (h : r.Keeping name mode position S V env context)
include h

theorem collection : Keeps env (r.collection context) (Cursor.Shaped mode position S V) := by
  intro c hc
  obtain ⟨d, hd⟩ := h.rows c hc
  refine .of_gives (.bind (.read ?_)) hd
  rw [hc.mode_eq, hc.position_eq]
  cases hp : mode.isParallel with
  | false => exact .locate (.raise hc)
  | true =>
    simp only [Bool.not_true, Bool.false_eq_true, ↓reduceIte]
    cases kept? c context with
    | some rows => exact .pure trivial
    | none =>
      refine .bind ((drive h.collect c hc).locate.mono (fun _ _ _ => ?_) fun _ => id)
      exact .bind (.read (.bind (.write (.pure trivial))))

theorem prepare : Keeps env (r.prepare context) (Cursor.Shaped mode position S V) := by
  intro c hc
  refine .bind (.read ?_)
  have hpulled (hmode : mode ≠ .host) : Leaves env (do
      let rows ← r.collection context
      let records ← Step.lift (Engine.materialize rows c.position)
      let c ← Step.read
      Step.write { c with materialized := some records }) c
      (fun _ => Cursor.Shaped mode position S V) (Cursor.Shaped mode position S V) := by
    refine .bind ((h.collection c hc).mono (fun rows c' hc' => ?_) fun _ => id)
    refine .bind (.lift (fun records => .bind (.read (.write ?_))) hc')
    exact ⟨hc'.mode_eq, hc'.position_eq, hc'.node, fun hm => absurd hm hmode, hc'.memo⟩
  have hmode := hc.mode_eq
  cases hm : c.mode with
  | unset => exact .locate (.raise hc)
  | host => exact (drive h.start c hc).locate
  | rows => exact hpulled (by rw [← hmode, hm]; simp)
  | columns => exact hpulled (by rw [← hmode, hm]; simp)

theorem begin : Keeps env (r.begin context) (Cursor.Shaped mode position S V) := by
  refine .bind h.prepare fun _ => .bind (advance h.pull) fun first c hc => ?_
  exact .bind (.read (.write ⟨hc.mode_eq, hc.position_eq, hc.node, hc.host, hc.memo⟩))

theorem openIn : Keeps env (r.openIn context) (Cursor.Shaped mode position S V) := by
  intro c hc
  have hbegin (c : Cursor ν α) (hc : c.Shaped mode position S V) : Leaves env (do
      Step.lift (Engine.count Metrics.iteratorOpened)
      (r.begin context).onFailure Cursor.release) c
      (fun _ => Cursor.Shaped mode position S V) (Cursor.Shaped mode position S V) := by
    refine .bind (.lift (fun _ => .onFailure ((h.begin c hc).mono (fun _ _ => id) ?_)) hc)
    exact fun c hc => leaves_release (hc.released h.kind) (hc.released h.kind)
  refine .bind (.read ?_)
  cases c.isOpen with
  | true => exact .bind (leaves_release (hbegin _ (hc.released h.kind)) (hc.released h.kind))
  | false => exact hbegin c hc

theorem reset : Keeps env (r.reset context) (Cursor.Shaped mode position S V) := fun _ hc =>
  .bind (leaves_release (h.begin _ (hc.released h.kind)) (hc.released h.kind))

omit [CursorNode ν] h in
theorem lookahead {c : Cursor ν α} (hc : c.Shaped mode position S V) (l : Lookahead α) :
    Cursor.Shaped mode position S V { c with lookahead := l } :=
  ⟨hc.mode_eq, hc.position_eq, hc.node, hc.host, hc.memo⟩

omit h in
theorem next (hpull : Keeps env r.pull S) : Keeps env r.next (Cursor.Shaped mode position S V) := by
  intro c hc
  refine .bind (.read ?_)
  rcases c.lookahead.take c.name with ⟨e | a, l⟩
  · exact .raise hc
  · refine .bind (.write (.bind ((advance hpull _ (lookahead hc l)).mono
      (fun following c hc => ?_) fun _ => id)))
    exact .bind (.read (.bind (.write (.pure (lookahead hc _)))))

end Keeping
end Rules

/-! ## Cursors of plans -/

/-- Cutting a list of members in two. -/
theorem MembersShape.append_inv {K : Memory} {ps : List Plan} {cs ds : List ItemCursor}
    (h : MembersShape K ps (cs ++ ds)) : ∃ through rest, ps = through ++ rest ∧
      MembersShape K through cs ∧ MembersShape K rest ds := by
  induction cs generalizing ps with
  | nil => exact ⟨[], ps, rfl, .nil, h⟩
  | cons c cs ih =>
    obtain _ | ⟨hp, hs⟩ := h
    obtain ⟨through, rest, rfl, ht, hr⟩ := ih hs
    exact ⟨_ :: through, rest, rfl, .cons hp ht, hr⟩

namespace Evaluator

/-- The protocol keeps the shapes of cursors, in all contexts that handles tell apart. -/
structure KeepsShapes (K : Memory) (env : Environment) (ev : Evaluator) : Prop where
  openIn : ∀ (p : Plan) context, context.Known K.marks →
    Keeps env (ev.items.openIn context) (p.Shapes K)
  reset : ∀ (p : Plan) context, context.Known K.marks →
    Keeps env (ev.items.reset context) (p.Shapes K)
  next : ∀ p : Plan, Keeps env ev.items.next (p.Shapes K)
  collection : ∀ (p : Plan) context, context.Known K.marks →
    Keeps env (ev.items.collection context) (p.Shapes K)
  openFeed : ∀ (p : Pipeline) context, context.Known K.marks →
    Keeps env (ev.openFeed context) (p.Shapes K)
  nextTuple : ∀ p : Pipeline, Keeps env ev.nextTuple (p.Shapes K)
  feedRows : ∀ (p : Pipeline) context, context.Known K.marks →
    Keeps env (ev.feedRows context) (p.Shapes K)

/-- Driving nodes keeps their shapes, over cursors that keep what may be kept. -/
structure KeepsNodeShapes (K : Memory) (env : Environment) (ev : Evaluator) : Prop where
  start : ∀ (operation : Operation) position context, context.Known K.marks →
    Keeps env (ev.items.start context) (operation.Shapes K position)
  pull : ∀ (operation : Operation) position, Keeps env ev.items.pull (operation.Shapes K position)
  collect : ∀ mode (operation : Operation) position context, context.Known K.marks →
    Keeps env (ev.items.collect mode context) (operation.Shapes K position)
  startClause : ∀ (operation : ClauseOperation) position before context, context.Known K.marks →
    Keeps env (ev.tuples.start context) (operation.Shapes K position before)
  pullClause : ∀ (operation : ClauseOperation) position before,
    Keeps env ev.tuples.pull (operation.Shapes K position before)
  collectClause : ∀ mode (operation : ClauseOperation) position before context,
    context.Known K.marks →
      Keeps env (ev.tuples.collect mode context) (operation.Shapes K position before)

variable {K : Memory} {ev : Evaluator}

/-! ### From nodes to plans -/

section
variable {evs : ℕ → Evaluator} {N : NodeMeaning} (h : (evs 0).KeepsNodeShapes K env)
  (hsound : FollowsNodes K (pure 0) True env evs N) {context : Context}
  (hc : context.Known K.marks)
include h hsound hc

/-- The node of a plan. What is kept of its distributed form is sound. -/
theorem KeepsNodeShapes.plan (p : Plan) :
    (evs 0).items.Keeping p.name p.mode p.position (p.Kind (K.over True env N))
      ((K.over True env N).top.items p) env context where
  kind := Operation.Shapes.kind p.operation p.position
  start := h.start p.operation p.position context hc
  pull := h.pull p.operation p.position
  collect := h.collect p.mode p.operation p.position context hc
  rows _ hs := ⟨_, (Filter.eventually_pure.mp (hsound.drivenPlan p context hc)).collection hs⟩

/-- The node of a clause. What is kept of its distributed form is sound. -/
theorem KeepsNodeShapes.clause (mode : Mode) (position : SourcePosition)
    (operation : ClauseOperation) (before : Pipeline) :
    (evs 0).tuples.Keeping operation.name mode position (operation.Shapes K position before)
      ((K.over True env N).top.tuples mode position operation before) env context where
  kind := ClauseOperation.Shapes.kind operation position before
  start := h.startClause operation position before context hc
  pull := h.pullClause operation position before
  collect := h.collectClause mode operation position before context hc
  rows _ hs := ⟨_, (Filter.eventually_pure.mp
    (hsound.drivenClause mode position operation before context hc)).collection hs⟩

end

theorem keeps_of_shaped {p : Plan} {x : Step ItemCursor β}
    (hx : Keeps env x (Cursor.Shaped p.mode p.position (p.Kind K) (K.top.items p))) :
    Keeps env x (p.Shapes K) := fun c hs =>
  (hx c hs.shaped).mono (fun _ _ => .of_shaped) fun _ => .of_shaped

/-- A step on a chain of clauses that drives the cursor of the last one. -/
theorem keeps_clause {x : Step Feed β} {mode : Mode} {position : SourcePosition}
    {operation : ClauseOperation} {before : Pipeline} {y : Step TupleCursor β}
    (hx : ∀ c Q I, Leaves env (do
      let (b, _) ← Step.part Feed.clause c y
      return b) (.clause c) Q I → Leaves env x (.clause c) Q I)
    (hy : Keeps env y (Cursor.Shaped mode position (operation.Shapes K.below position before)
      (K.top.tuples mode position operation before))) :
    Keeps env x (Pipeline.Shapes K (.clause mode position operation before)) := by
  rintro feed (_ | ⟨hm, hp, hn, hh, hv⟩)
  refine hx _ _ _ (hy.whole ⟨hm, hp, hn, hh, hv⟩ fun c hc => ?_)
  exact .clause hc.mode_eq hc.position_eq hc.node hc.host hc.memo

/-- The protocol keeps shapes if driving nodes does. -/
theorem KeepsNodeShapes.driven {evs : ℕ → Evaluator} {N : NodeMeaning}
    (h : (evs 0).KeepsNodeShapes K env) (hsound : FollowsNodes K (pure 0) True env evs N) :
    (evs 0).KeepsShapes (K.over True env N) env where
  openIn p context hc := keeps_of_shaped (h.plan hsound hc p).openIn
  reset p context hc := keeps_of_shaped (h.plan hsound hc p).reset
  next p := keeps_of_shaped (Rules.Keeping.next (h.pull p.operation p.position))
  collection p context hc := keeps_of_shaped (h.plan hsound hc p).collection
  openFeed p context hc := by
    cases p with
    | start =>
      rintro feed (_ | _)
      exact .bind (.read (.write .start))
    | clause mode position operation before =>
      exact keeps_clause (fun _ _ _ h => .bind (.read h))
        (h.clause hsound hc mode position operation before).openIn
  nextTuple p := by
    cases p with
    | start =>
      rintro feed (_ | _)
      exact .bind (.read (.bind (.write (.pure .start))))
    | clause mode position operation before =>
      exact keeps_clause (fun _ _ _ h => .bind (.read h))
        (Rules.keeps_next? (Rules.Keeping.next (h.pullClause operation position before)))
  feedRows p context hc := by
    cases p with
    | start =>
      rintro feed (_ | _)
      exact .bind (.read (.pure .start))
    | clause mode position operation before =>
      exact keeps_clause (fun _ _ _ h => .bind (.read h))
        (h.clause hsound hc mode position operation before).collection

end Evaluator
end HybridQuery
