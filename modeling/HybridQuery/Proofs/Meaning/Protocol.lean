import HybridQuery.Proofs.Meaning.Limits

/-!
# The iterator protocol keeps to traces

A cursor that is opened hands out the trace of its node, each result after the next one is computed.
What the node does is given by two facts: pulling it gives a trace (`Starts`), and its distributed form
is a collection (`Gives`).

* `Cursor.Shaped`: a cursor of given mode and position whose node is of some kind, however far it has
  come.
* `Rules.Driven.openIn`, `Rules.Driven.reset`: opening a cursor gives a cursor that holds a trace.
* `Rules.Holding.pulls`, `Rules.Holding.drain`: what handing it out gives.
* `Rules.Driven.collection`: the distributed form, computed or kept from before.
-/

namespace HybridQuery

variable {L : Prop} {env : Environment} {ν α γ : Type}

/-! ## Shapes of cursors -/

/-- A cursor of given mode and position whose node is of a kind `S`. The distributed form that it keeps
is one that may be kept, by `V`. -/
structure Cursor.Shaped (mode : Mode) (position : SourcePosition) (S : ν → Prop)
    (V : Nat → Collection α → Prop) (c : Cursor ν α) : Prop where
  mode_eq : c.mode = mode
  position_eq : c.position = position
  node : S c.node
  /-- Nothing is pulled to the host where the node is on the host itself. -/
  host : mode = .host → c.materialized = none
  memo : ∀ handle rows, c.memo = some (handle, rows) → V handle rows

/-- A kind of nodes that have one name and stay what they are when they are closed. -/
structure NodeKind [CursorNode ν] (name : String) (S : ν → Prop) : Prop where
  name : ∀ n, S n → CursorNode.name n = name
  closed : ∀ n, S n → S (CursorNode.closed n)

theorem Cursor.Shaped.released [CursorNode ν] {name : String} {mode : Mode}
    {position : SourcePosition} {S : ν → Prop} {V : Nat → Collection α → Prop} {c : Cursor ν α}
    (h : c.Shaped mode position S V) (hS : NodeKind name S) : c.closed.Shaped mode position S V :=
  ⟨h.mode_eq, h.position_eq, hS.closed _ h.node, fun _ => rfl, fun _ _ h => nomatch h⟩

theorem ensures_release [CursorNode ν] {c : Cursor ν α} {Q : Unit → Cursor ν α → Prop}
    {E : Failure → Prop} (h : Q () c.closed) : Ensures env Cursor.release c Q E :=
  .bind (.read (.bind (.write (ensures_lift fun _ => h))))

theorem Ensures.onFailure {σ β : Type} {x : Step σ β} {cleanUp : Step σ Unit} {s : σ}
    {Q : β → σ → Prop} {E : Failure → Prop} (h : Ensures env x s Q E) :
    Ensures env (x.onFailure cleanUp) s Q E := by
  intro r
  have := h r
  cases hx : x env (s, r) with
  | ok b s' =>
    rw [hx] at this
    simpa only [Run.onFailure, hx] using this
  | error f s' =>
    rw [hx] at this
    simp only [Run.onFailure, hx]
    cases cleanUp env s' <;> exact this

theorem Fails.onFailure {σ β : Type} {x : Step σ β} {cleanUp : Step σ Unit} {s : σ} {f : Failure}
    (h : Fails L env x s f) : Fails L env (x.onFailure cleanUp) s f :=
  h.imp_right fun h => h.onFailure

theorem Ensures.drive {β : Type} {x : Step ν β} {c : Cursor ν α}
    {Q : β → Cursor ν α → Prop} {E : Failure → Prop}
    (h : Ensures env x c.node (fun b n => Q b { c with node := n }) E) :
    Ensures env (Cursor.drive x) c Q E :=
  .bind (.read (.bind (.part (h.mono (fun _ _ h => .pure h) fun _ => id))))

theorem Fails.drive {β : Type} {x : Step ν β} {c : Cursor ν α} {f : Failure}
    (h : Fails L env x c.node f) : Fails L env (Cursor.drive x) c f :=
  h.imp_right fun h => .drive (h.mono (fun _ _ h => h) fun _ => id)

/-! ## Nodes -/

/-- Starting a node and pulling it gives a trace. -/
def Starts (L : Prop) (env : Environment) (start : Step ν Unit) (pull : Step ν (Option α))
    (S : ν → Prop) (n : ν) (t : Trace α) : Prop :=
  (∃ f, t = .failed f ∧ Fails L env start n f) ∨
    Ensures env start n (fun _ n' => Pulls L env pull S n' t) (Spent L)

section
variable {σ τ β : Type} {start : Step σ Unit} {pull : Step σ (Option α)} {S : σ → Prop} {s : σ}
  {t : Trace α}

theorem Starts.of_step {start' : Step σ Unit}
    (hstep : ∀ Q E, Ensures env start' s Q E → Ensures env start s Q E)
    (h : Starts L env start' pull S s t) : Starts L env start pull S s t :=
  h.imp (fun ⟨f, ht, h⟩ => ⟨f, ht, h.imp_right (hstep _ _)⟩) (hstep _ _)

/-- Computes a value first; without one the trace fails. -/
theorem Starts.lift {y : Engine β} {d : Except Failure β} {k : β → Step σ Unit} {f : β → Trace α}
    (hy : Answers L env y d) (h : ∀ b, d = .ok b → Starts L env (k b) pull S s (f b)) :
    Starts L env (Step.lift y >>= k) pull S s (.attempt d f) := by
  cases d with
  | error e => exact .inl ⟨e, rfl, .bind hy.fails⟩
  | ok b =>
    obtain ⟨e, he, hf⟩ | hk := h b rfl
    · exact .inl ⟨e, he, .after (hy.lift hf fun _ => id)⟩
    · exact .inr (.bind (hy.lift hk fun _ => id))

/-- Starts a part of the state and then, if that succeeds, pulls the whole by pulling the part. -/
theorem Starts.part {whole : τ → σ} {u : τ} {x : Step τ β} {T : τ → Prop} {y : Step τ (Option γ)}
    {tu : Trace γ} {k : β × τ → Step σ Unit} (hx : (∃ f, tu = .failed f ∧ Fails L env x u f) ∨
      Ensures env x u (fun _ u' => Pulls L env y T u' tu) (Spent L))
    (hfail : ∀ f, tu = .failed f → t = .failed f)
    (hk : ∀ b u', Pulls L env y T u' tu →
      Ensures env (k (b, u')) (whole u') (fun _ s' => Pulls L env pull S s' t) (Spent L)) :
    Starts L env (Step.part whole u x >>= k) pull S s t := by
  obtain ⟨f, ht, h⟩ | h := hx
  · exact .inl ⟨f, hfail f ht, .bind (.part h)⟩
  · exact .inr (.bind (.part (h.mono (fun b u' hu => hk b u' hu) fun _ => id)))

/-- Computes all results first and hands them out afterwards. -/
theorem Starts.ofResult {whole : τ → σ} {u : τ} {x : Step τ (List α)} {T : τ → Prop}
    {d : Except Failure (List α)} {k : List α × τ → Step σ Unit} (hx : Gives L env x u T d)
    (hk : ∀ l u', T u' →
      Ensures env (k (l, u')) (whole u') (fun _ s' => Pulls L env pull S s' (.ofList l)) (Spent L)) :
    Starts L env (Step.part whole u x >>= k) pull S s (.ofResult d) := by
  cases d with
  | error f => exact .inl ⟨f, rfl, .bind (.part (gives_error.mp hx))⟩
  | ok l =>
    refine .inr (.bind (.part ((gives_ok.mp hx).mono ?_ fun _ => id)))
    rintro l u' ⟨rfl, hu⟩
    exact hk l u' hu

end

/-! ## Distributed forms that are kept -/

/-- A collection is a distributed form that was computed before, unless the meaning says nothing of
it. -/
def StandsFor (L : Prop) (d : Except Failure (Collection α)) (rows : Collection α) : Prop :=
  (d = .error .exhausted ∧ ¬L) ∨ d = .ok rows

theorem StandsFor.gives {σ : Type} {d : Except Failure (Collection α)} {rows : Collection α} {s : σ}
    {I : σ → Prop} (h : StandsFor L d rows) (hs : I s) : Gives L env (pure rows) s I d := by
  obtain ⟨rfl, hL⟩ | rfl := h
  · exact gives_error.mpr (.inl ⟨hL, rfl⟩)
  · exact .pure hs

/-! ## Cursors that are open -/

namespace Rules

variable (r : Rules ν α) (mode : Mode) (position : SourcePosition) (S : ν → Prop)
  (V : Nat → Collection α → Prop)

/-- What `advance` is still going to give, from the node or from what was pulled to the host. -/
def Remains (L : Prop) (env : Environment) (c : Cursor ν α) (t : Trace α) : Prop :=
  (mode = .host ∧ ∃ u, t = u.locate position ∧ Pulls L env r.pull S c.node u) ∨
    (mode ≠ .host ∧ ∃ l, c.materialized = some l ∧ t = .ofList l)

/-- An open cursor that holds the first result of a trace. -/
def Holding (L : Prop) (env : Environment) (c : Cursor ν α) : Trace α → Prop
  | .done => c.lookahead = ⟨true, none⟩ ∧ c.Shaped mode position S V
  | .failed _ => False
  | .item a t =>
    c.lookahead = ⟨true, some a⟩ ∧ c.Shaped mode position S V ∧ Remains r mode position S L env c t

/-- A step gives a value and a cursor that holds a trace, or it fails as the trace does at once. -/
def Yields {β : Type} (L : Prop) (env : Environment) (x : Step (Cursor ν α) β) (c : Cursor ν α)
    (b : β) (t : Trace α) : Prop :=
  (∃ f, t = .failed f ∧ Fails L env x c f) ∨
    Ensures env x c (fun b' c' => b' = b ∧ Holding r mode position S V L env c' t) (Spent L)

variable {r mode position S V} {c : Cursor ν α} {t : Trace α}

theorem Holding.shaped (h : Holding r mode position S V L env c t) : c.Shaped mode position S V := by
  cases t with
  | done => exact h.2
  | failed f => exact h.elim
  | item a t => exact h.2.1

theorem Holding.hasNext (h : Holding r mode position S V L env c t) :
    t.isEmpty = .ok (!c.hasNext) := by
  cases t with
  | done => rw [Cursor.hasNext, h.1]; rfl
  | failed f => exact h.elim
  | item a t => rw [Cursor.hasNext, h.1]; rfl

theorem Holding.isOpen (h : Holding r mode position S V L env c t) : c.isOpen = true := by
  cases t with
  | done => rw [Cursor.isOpen, h.1]
  | failed f => exact h.elim
  | item a t => rw [Cursor.isOpen, h.1]

theorem hands_advance (hc : c.Shaped mode position S V)
    (h : Remains r mode position S L env c t) :
    Hands L env r.advance c (fun c' => c'.lookahead = c.lookahead ∧ c'.Shaped mode position S V)
      (fun c' t' => c'.lookahead = c.lookahead ∧ c'.Shaped mode position S V ∧
        Remains r mode position S L env c' t') t := by
  refine .bind (.read ?_)
  obtain ⟨rfl, u, rfl, hp⟩ | ⟨hm, l, hl, rfl⟩ := h
  · -- the node is driven
    have hstep (n : ν) (hn : S n) : Cursor.Shaped .host position S V { c with node := n } :=
      ⟨hc.mode_eq, hc.position_eq, hn, hc.host, hc.memo⟩
    rw [hc.host rfl, hc.position_eq]
    cases u with
    | failed f => exact hands_failed.mpr (.locate (.drive hp.2))
    | done =>
      refine hands_done.mpr (.locate (.drive (hp.2.mono (fun o n h => ?_) fun f h => ?_)))
      · exact ⟨h.1, rfl, hstep n h.2⟩
      · exact Spent.locate.mpr h
    | item a u =>
      refine hands_item.mpr (.locate (.drive (hp.2.mono (fun o n h => ?_) fun f h => ?_)))
      · exact ⟨h.1, rfl, hstep n h.2.inv, .inl ⟨rfl, u, rfl, h.2⟩⟩
      · exact Spent.locate.mpr h
  · rw [hl]
    cases l with
    | nil => exact .none ⟨rfl, hc⟩
    | cons a l =>
      refine .bind (.write (.some ⟨rfl, ⟨hc.mode_eq, hc.position_eq, hc.node, fun h => absurd h hm, hc.memo⟩, ?_⟩))
      exact .inr ⟨hm, l, rfl, rfl⟩

/-! ## Handing out -/

section
variable {β : Type} {b : β}

/-- The next result is computed and put into the lookahead. -/
theorem Yields.advance {k : Option α → Step (Cursor ν α) β} (hc : c.Shaped mode position S V)
    (h : Remains r mode position S L env c t)
    (hk : ∀ o c', c'.lookahead = c.lookahead → Ensures env (k o) c'
      (fun b' c'' => b' = b ∧ c'' = { c' with lookahead := ⟨true, o⟩ }) (Spent L)) :
    Yields r mode position S V L env (r.advance >>= k) c b t := by
  have hshape {c' : Cursor ν α} (h : c'.Shaped mode position S V) (l : Lookahead α) :
      Cursor.Shaped mode position S V { c' with lookahead := l } := ⟨h.1, h.2, h.3, h.4, h.5⟩
  cases t with
  | failed f => exact .inl ⟨f, rfl, .bind (hands_failed.mp (hands_advance hc h))⟩
  | done =>
    refine .inr (.bind ((hands_done.mp (hands_advance hc h)).mono ?_ fun _ => id))
    rintro o c' ⟨rfl, hl, hc'⟩
    refine (hk none c' hl).mono ?_ fun _ => id
    rintro b' c'' ⟨rfl, rfl⟩
    exact ⟨rfl, rfl, hshape hc' _⟩
  | item a t =>
    refine .inr (.bind ((hands_item.mp (hands_advance hc h)).mono ?_ fun _ => id))
    rintro o c' ⟨rfl, hl, hc', hr⟩
    refine (hk (some a) c' hl).mono ?_ fun _ => id
    rintro b' c'' ⟨rfl, rfl⟩
    exact ⟨rfl, rfl, hshape hc' _, hr⟩

theorem Yields.fails {x : Step (Cursor ν α) β} {f : Failure}
    (h : Yields r mode position S V L env x c b (.failed f)) : Fails L env x c f := by
  obtain ⟨f', hf, h⟩ | h := h
  · cases hf
    exact h
  · exact .inr (h.mono (fun _ _ h => h.2) fun _ => .inr)

theorem Yields.onFailure {x : Step (Cursor ν α) β} {cleanUp : Step (Cursor ν α) Unit}
    (h : Yields r mode position S V L env x c b t) :
    Yields r mode position S V L env (x.onFailure cleanUp) c b t :=
  h.imp (fun ⟨f, hf, h⟩ => ⟨f, hf, h.onFailure⟩) Ensures.onFailure

theorem Yields.bind {x : Step (Cursor ν α) β} {k : β → Step (Cursor ν α) γ}
    {I : Cursor ν α → Prop} {d : Except Failure γ} (h : Yields r mode position S V L env x c b t)
    (hfail : ∀ f, t = .failed f → d = .error f)
    (hk : ∀ c', Holding r mode position S V L env c' t → Gives L env (k b) c' I d) :
    Gives L env (x >>= k) c I d := by
  obtain ⟨f, rfl, h⟩ | h := h
  · rw [hfail f rfl]
    exact gives_error.mpr h.bind
  · refine .bind (h.mono ?_ fun _ => id)
    rintro b' c' ⟨rfl, h'⟩
    exact hk c' h'

theorem Yields.ensures {x : Step (Cursor ν α) β} (h : Yields r mode position S V L env x c b t)
    (ht : ∀ f, t ≠ .failed f) :
    Ensures env x c (fun b' c' => b' = b ∧ Holding r mode position S V L env c' t) (Spent L) :=
  h.resolve_left fun ⟨f, hf, _⟩ => ht f hf

variable [CursorNode ν]

theorem Holding.next {a : α} (h : Holding r mode position S V L env c (.item a t)) :
    Yields r mode position S V L env r.next c a t := by
  obtain ⟨hl, hc, hr⟩ := h
  have hrest : Yields r mode position S V L env
      (do
        let following ← r.advance
        let c ← Step.read
        Step.write { c with lookahead := c.lookahead.refill following }
        return a) { c with lookahead := ⟨true, none⟩ } a t := by
    refine Yields.advance ⟨hc.1, hc.2, hc.3, hc.4, hc.5⟩ hr fun o c' hl' => ?_
    exact .bind (.read (.bind (.write (.pure ⟨rfl, by rw [hl']; rfl⟩))))
  have hnext {Q E} (h : Ensures env
      (do
        let following ← r.advance
        let c ← Step.read
        Step.write { c with lookahead := c.lookahead.refill following }
        return a) { c with lookahead := ⟨true, none⟩ } Q E) : Ensures env r.next c Q E := by
    refine .bind (.read ?_)
    rw [hl]
    exact .bind (.write h)
  exact hrest.imp (fun ⟨f, hf, h⟩ => ⟨f, hf, h.imp_right hnext⟩) hnext

/-- What a cursor hands out is its trace, each result after the next one is computed; it stays open. -/
theorem Holding.pulls_open (h : Holding r mode position S V L env c t) :
    Pulls L env r.next? (fun c => c.Shaped mode position S V ∧ c.isOpen = true) c t.ahead := by
  refine Pulls.of_relation
    (R := fun c u => ∃ t, u = t.ahead ∧ Holding r mode position S V L env c t) ?_ ?_ _ c ⟨t, rfl, h⟩
  · rintro c u ⟨t, -, h⟩
    exact ⟨h.shaped, h.isOpen⟩
  · rintro c u ⟨t, rfl, h⟩
    have hn := h.hasNext
    refine .bind (.read ?_)
    cases t with
    | failed f => exact h.elim
    | done =>
      have hn : c.hasNext = false := by simpa [Trace.isEmpty] using hn
      rw [hn]
      exact .none ⟨h.shaped, h.isOpen⟩
    | item a t =>
      have hn : c.hasNext = true := by simpa [Trace.isEmpty] using hn
      rw [hn]
      cases t with
      | failed f => exact .fails h.next.fails
      | done =>
        refine hands_item.mpr (.bind ((h.next.ensures (by simp)).mono ?_ fun _ => id))
        rintro b c' ⟨rfl, h'⟩
        exact .pure ⟨rfl, _, rfl, h'⟩
      | item a' t =>
        refine hands_item.mpr (.bind ((h.next.ensures (by simp)).mono ?_ fun _ => id))
        rintro b c' ⟨rfl, h'⟩
        exact .pure ⟨rfl, _, rfl, h'⟩

theorem Holding.pulls (h : Holding r mode position S V L env c t) :
    Pulls L env r.next? (Cursor.Shaped mode position S V) c t.ahead :=
  h.pulls_open.mono fun _ => And.left

/-- Everything that a cursor has left, up to a limit that only a deep evaluation reaches. -/
theorem Holding.drainOnto {limit : Nat} {l : List α}
    (h : Holding r mode position S V L env c t) (hlimit : L ∨ t.toList.length < limit) :
    Gives L env (r.drainOnto limit l) c (fun _ => True) ((l.reverse ++ ·) <$> t.result) := by
  induction t generalizing c limit l with
  | failed f => exact h.elim
  | done =>
    have hn : c.hasNext = false := by simpa [Trace.isEmpty] using h.hasNext
    cases limit with
    | zero => exact .exhausted (hlimit.resolve_right (by simp))
    | succ limit =>
      refine gives_ok.mpr (.bind (.read ?_))
      rw [hn]
      exact .bind (ensures_release (.pure ⟨by simp, trivial⟩))
  | item a t ih =>
    have hn : c.hasNext = true := by simpa [Trace.isEmpty] using h.hasNext
    cases limit with
    | zero => exact .exhausted (hlimit.resolve_right (by simp))
    | succ limit =>
      have hlimit : L ∨ t.toList.length < limit := by simpa [Trace.toList] using hlimit
      refine .bind (.read ?_)
      rw [hn]
      refine h.next.onFailure.bind (fun f hf => by rw [hf]; rfl) fun c' h' => ?_
      have := ih (l := a :: l) h' hlimit
      rw [Trace.result]
      cases hd : t.result with
      | ok l => simpa [hd] using this
      | error f => simpa [hd] using this

theorem Holding.drain {limit : Nat} (h : Holding r mode position S V L env c t)
    (hlimit : L ∨ t.toList.length < limit) :
    Gives L env (r.drain limit) c (fun _ => True) t.result := by
  simpa [Rules.drain] using h.drainOnto (l := []) hlimit

/-! ## Opening -/

/-- What driving the nodes of a kind in a context gives, on the host and distributed. -/
structure Driven (r : Rules ν α) (name : String) (mode : Mode) (position : SourcePosition)
    (S : ν → Prop) (V : Nat → Collection α → Prop) (L : Prop) (env : Environment)
    (context : Context) (host : Trace α) (rows : Engine (Collection α)) : Prop where
  kind : NodeKind name S
  /-- What may be kept for the context is its distributed form. -/
  kept : ∀ handle, context.handle = some handle → ∀ rows',
    V handle rows' ↔ StandsFor L ((Run.distributed name mode position rows).result env) rows'
  starts : mode = .host → ∀ n, S n → Starts L env (r.start context) r.pull S n host
  collects : mode.isParallel = true → ∀ n, S n →
    Gives L env (r.collect mode context) n S (rows.result env)

variable {name : String} {context : Context} {host : Trace α} {rows : Engine (Collection α)}

omit [CursorNode ν] in
theorem kept?_eq_some {kept : Collection α} (h : kept? c context = some kept) :
    ∃ handle, c.memo = some (handle, kept) ∧ context.handle = some handle := by
  unfold kept? at h
  split at h
  · next handle rows asked hm hh =>
    split at h
    · next heq =>
      cases h
      exact ⟨handle, hm, by rw [hh, heq]⟩
    · cases h
  · cases h

theorem Driven.collection (h : Driven r name mode position S V L env context host rows)
    (hc : c.Shaped mode position S V) :
    Gives L env (r.collection context) c (Cursor.Shaped mode position S V)
      ((Run.distributed name mode position rows).result env) := by
  refine .bind (.read ?_)
  have hname : c.name = name := h.kind.name _ hc.node
  have hkept := h.kept
  rw [hname, hc.mode_eq, hc.position_eq]
  cases hm : mode.isParallel with
  | false =>
    rw [Run.distributed, hm]
    exact gives_error.mpr (.locate .raised)
  | true =>
    rw [Run.distributed, hm] at hkept ⊢
    simp only [Bool.not_true, Bool.false_eq_true, ↓reduceIte] at hkept ⊢
    cases hk : kept? c context with
    | some kept =>
      -- the form was computed before
      obtain ⟨handle, hmemo, hhandle⟩ := kept?_eq_some hk
      exact ((hkept handle hhandle kept).mp (hc.memo handle kept hmemo)).gives hc
    | none =>
      have hdrive : Gives L env (Cursor.drive (r.collect mode context)) c
          (Cursor.Shaped mode position S V) (rows.result env) := by
        exact .bind (.read ((h.collects hm c.node hc.node).whole fun n hn =>
          ⟨hc.1, hc.2, hn, hc.4, hc.5⟩))
      rw [Engine.result_locate] at hkept ⊢
      have hlocated : Gives L env (Run.locate _ position) c _ _ := hdrive.locate
      have := hlocated.bind_of (e := pure) (I := Cursor.Shaped mode position S V)
        (k := fun rows => do
          let c ← Step.read
          Step.write { c with memo := context.handle.map fun handle => (handle, rows) }
          return rows)
        fun b c' hb hc' => by
          refine .bind (.read (.bind (.write (.pure ⟨hc'.1, hc'.2, hc'.3, hc'.4, ?_⟩))))
          intro handle rows' hmemo
          obtain ⟨_, hhandle, heq⟩ := Option.map_eq_some_iff.mp hmemo
          cases heq
          exact (hkept handle hhandle b).mpr (.inr hb)
      rwa [bind_pure] at this

/-- Preparing the results and computing the first one. -/
theorem Yields.begin
    (h : (∃ f, t = .failed f ∧ Fails L env (r.prepare context) c f) ∨
      Ensures env (r.prepare context) c
        (fun _ c' => c'.Shaped mode position S V ∧ Remains r mode position S L env c' t)
        (Spent L)) :
    Yields r mode position S V L env (r.begin context) c () t := by
  have hadvance (c' : Cursor ν α) (hc : c'.Shaped mode position S V)
      (hr : Remains r mode position S L env c' t) :
      Yields r mode position S V L env
        (do
          let first ← r.advance
          let c ← Step.read
          Step.write { c with lookahead := .opened first }) c' () t :=
    .advance hc hr fun _ _ _ => .bind (.read (.write ⟨rfl, rfl⟩))
  obtain ⟨f, ht, h⟩ | h := h
  · exact .inl ⟨f, ht, h.bind⟩
  by_cases ht : ∃ f, t = .failed f
  · obtain ⟨f, rfl⟩ := ht
    exact .inl ⟨f, rfl, .after (h.mono (fun _ c' h => (hadvance c' h.1 h.2).fails) fun _ => id)⟩
  · exact .inr (.bind (h.mono (fun _ c' h => (hadvance c' h.1 h.2).ensures fun f hf => ht ⟨f, hf⟩)
      fun _ => id))

/-- A distributed form is pulled to the host. -/
theorem Driven.crossing (h : Driven r name mode position S V L env context host rows)
    (hc : c.Shaped mode position S V) (hmode : mode ≠ .host) (ht : t = Engine.trace (do
      Engine.materialize (← Run.distributed name mode position rows) position) env) :
    let x : Step (Cursor ν α) Unit := do
      let rows ← r.collection context
      let records ← Step.lift (Engine.materialize rows position)
      let c ← Step.read
      Step.write { c with materialized := some records }
    (∃ f, t = .failed f ∧ Fails L env x c f) ∨
      Ensures env x c
        (fun _ c' => c'.Shaped mode position S V ∧ Remains r mode position S L env c' t)
        (Spent L) := by
  have hmat (rows : Collection α) : Answers L env (Engine.materialize rows position)
      ((Engine.materialize rows position).result env) :=
    (Tends.materialize (F := ⊥) (L := L) rows position).1.answers
  rw [Engine.trace,
    Engine.result_bind fun rows _ => (Tends.materialize (F := ⊥) (L := L) rows position).1] at ht
  intro x
  have hcoll := h.collection hc
  cases hd : (Run.distributed name mode position rows).result env with
  | error f =>
    rw [hd] at ht hcoll
    exact .inl ⟨f, ht, .bind (gives_error.mp hcoll)⟩
  | ok rows' =>
    rw [hd] at ht hcoll
    have hcoll := gives_ok.mp hcoll
    have hm := hmat rows'
    cases hl : (Engine.materialize rows' position).result env with
    | error f =>
      have ht : t = .failed f := ht.trans (congrArg Trace.ofResult hl)
      refine .inl ⟨f, ht, .after (hcoll.mono ?_ fun _ => id)⟩
      rintro b c' ⟨rfl, -⟩
      rw [hl] at hm
      exact .bind hm.fails
    | ok l =>
      have hlist : t = .ofList l := ht.trans (congrArg Trace.ofResult hl)
      refine .inr (.bind (hcoll.mono ?_ fun _ => id))
      rintro b c' ⟨rfl, hc'⟩
      rw [hl] at hm
      refine .bind (hm.lift (.bind (.read (.write ⟨?_, ?_⟩))) fun _ => id)
      · exact ⟨hc'.1, hc'.2, hc'.3, fun h => absurd h hmode, hc'.5⟩
      · exact .inr ⟨hmode, l, rfl, hlist⟩

theorem Driven.begin (h : Driven r name mode position S V L env context host rows)
    (hc : c.Shaped mode position S V) :
    Yields r mode position S V L env (r.begin context) c ()
      (.pulled env name mode position host (Run.distributed name mode position rows)) := by
  refine .begin ?_
  cases hm : mode with
  | unset =>
    have hname : c.name = name := h.kind.name _ hc.node
    refine .inl ⟨_, rfl, .after (.read ?_)⟩
    rw [hc.mode_eq, hm, hc.position_eq, hname]
    exact .locate .raised
  | host =>
    subst hm
    obtain ⟨f, rfl, hf⟩ | hs := h.starts rfl c.node hc.node
    · refine .inl ⟨_, rfl, .after (.read ?_)⟩
      rw [hc.mode_eq, hc.position_eq]
      exact .locate (.drive hf)
    · refine .inr (.bind (.read ?_))
      rw [hc.mode_eq, hc.position_eq]
      refine .locate (.drive (hs.mono ?_ fun f => Spent.locate.mpr))
      rintro - n hp
      exact ⟨⟨hc.1, hc.2, hp.inv, hc.4, hc.5⟩, .inl ⟨rfl, host, rfl, hp⟩⟩
  | rows | columns =>
    subst hm
    have := h.crossing hc (by simp) rfl
    refine this.imp (fun ⟨f, hf, h⟩ => ⟨f, hf, .after (.read ?_)⟩) fun h => .bind (.read ?_)
    · rwa [hc.mode_eq, hc.position_eq]
    · rwa [hc.mode_eq, hc.position_eq]

theorem Driven.reset (h : Driven r name mode position S V L env context host rows)
    (hc : c.Shaped mode position S V) :
    Yields r mode position S V L env (r.reset context) c ()
      (.pulled env name mode position host (Run.distributed name mode position rows)) := by
  have := h.begin (hc.released h.kind)
  exact this.imp (fun ⟨f, hf, h⟩ => ⟨f, hf, .after (ensures_release h)⟩) fun h =>
    .bind (ensures_release h)

theorem Driven.openIn (h : Driven r name mode position S V L env context host rows)
    (hc : c.Shaped mode position S V) :
    Yields r mode position S V L env (r.openIn context) c ()
      (.pulled env name mode position host (Run.distributed name mode position rows)) := by
  have hbegin (c : Cursor ν α) (hc : c.Shaped mode position S V) :
      Yields r mode position S V L env (do
        Step.lift (Engine.count Metrics.iteratorOpened)
        (r.begin context).onFailure Cursor.release) c ()
        (.pulled env name mode position host (Run.distributed name mode position rows)) :=
    (h.begin hc).onFailure.imp
      (fun ⟨f, hf, h⟩ => ⟨f, hf, .after (ensures_lift fun _ => h)⟩) fun h =>
        .bind (ensures_lift fun _ => h)
  have hclosed := hbegin c.closed (hc.released h.kind)
  have hopen := hbegin c hc
  cases ho : c.isOpen with
  | true =>
    obtain ⟨f, hf, h⟩ | h := hclosed
    · refine .inl ⟨f, hf, .after (.read ?_)⟩
      rw [ho]
      exact .after (ensures_release h)
    · refine .inr (.bind (.read ?_))
      rw [ho]
      exact .bind (ensures_release h)
  | false =>
    obtain ⟨f, hf, h⟩ | h := hopen
    · refine .inl ⟨f, hf, .after (.read ?_)⟩
      rwa [ho]
    · refine .inr (.bind (.read ?_))
      rwa [ho]

end
end Rules
end HybridQuery
