import HybridQuery.Proofs.Meaning.Basic

/-!
# Steps that keep to a meaning

What a step does, whatever was recorded before it. An evaluator of bounded depth may give up where
the meaning goes on, and the other way round: `L` says which of the two is allowed.

* `Ensures`: a step ends in a result and a state of `Q`, or in a failure of `E`.
* `Answers`: a computation of the engine ends in a given result.
* `Fails`: a step ends in a given failure.
* `Pulls`: pulling a state again and again gives a trace. `Pulls.of_relation` proves it for every
  relation between states and traces that a single pull keeps (`Hands`).
-/

namespace HybridQuery

variable {σ τ υ α β γ : Type} {env : Environment}

/-! ## Postconditions -/

/-- Whatever was recorded before, `x` run from `s` ends in `Q`, or it fails in `E`. -/
def Ensures (env : Environment) (x : Step σ β) (s : σ) (Q : β → σ → Prop) (E : Failure → Prop) :
    Prop :=
  ∀ r, match x env (s, r) with
    | .ok b s' => Q b s'.1
    | .error f _ => E f

namespace Ensures

variable {x : Step σ β} {s : σ} {Q Q' : β → σ → Prop} {E E' : Failure → Prop}

theorem mono (h : Ensures env x s Q E) (hq : ∀ b s, Q b s → Q' b s) (he : ∀ f, E f → E' f) :
    Ensures env x s Q' E' := by
  intro r
  have := h r
  cases hx : x env (s, r) with
  | ok b s' => rw [hx] at this; exact hq _ _ this
  | error f s' => rw [hx] at this; exact he _ this

theorem bind {f : β → Step σ γ} {Q : γ → σ → Prop}
    (h : Ensures env x s (fun b s' => Ensures env (f b) s' Q E) E) :
    Ensures env (x >>= f) s Q E := by
  intro r
  have := h r
  simp only [Bind.bind, ReaderT.bind, EStateM.bind]
  split at this
  · next heq => rw [heq]; exact this _
  · next heq => rw [heq]; exact this

theorem pure {b : β} (h : Q b s) : Ensures env (Pure.pure b : Step σ β) s Q E := fun _ => h

theorem read {Q : σ → σ → Prop} (h : Q s s) : Ensures env Step.read s Q E := fun _ => h

theorem write {t : σ} {Q : Unit → σ → Prop} (h : Q () t) : Ensures env (Step.write t) s Q E :=
  fun _ => h

theorem environment {Q : Environment → σ → Prop} (h : Q env s) :
    Ensures env Run.environment s Q E := fun _ => h

theorem part {whole : υ → τ} {u : υ} {t : τ} {x : Step υ β} {Q : β × υ → τ → Prop}
    (h : Ensures env x u (fun b u' => Q (b, u') (whole u')) E) :
    Ensures env (Step.part whole u x) t Q E := by
  intro r
  have := h r
  simp only [Step.part]
  split at this
  · next heq => rw [heq]; exact this
  · next heq => rw [heq]; exact this

theorem locate {position : SourcePosition}
    (h : Ensures env x s Q fun f => E (f.locate position)) :
    Ensures env (x.locate position) s Q E := by
  intro r
  have := h r
  simp only [Run.locate]
  split at this
  · next heq => rw [heq]; exact this
  · next heq => rw [heq]; exact this

end Ensures

/-! ## Results and failures -/

section
variable (L : Prop) (env : Environment)

/-- A failure that only the bounded depth of an evaluator explains. -/
def Spent (f : Failure) : Prop := L ∧ f = .exhausted

/-- A failure of the meaning that says nothing of the evaluator. -/
def Open (f : Failure) : Prop := ¬L ∧ f = .exhausted

/-- `x` run from `s` fails with `f`. -/
def Fails (x : Step σ β) (s : σ) (f : Failure) : Prop :=
  Open L f ∨ Ensures env x s (fun _ _ => False) fun f' => f' = f ∨ Spent L f'

/-- `x` ends in the result `d`. -/
def Answers (x : Engine α) (d : Except Failure α) : Prop :=
  d = .error .exhausted ∧ ¬L ∨ ∀ r, match x env r with
    | .ok a _ => d = .ok a
    | .error f _ => d = .error f ∨ Spent L f

end

variable {L : Prop}

@[simp] theorem Spent.locate {f : Failure} {position : SourcePosition} :
    Spent L (f.locate position) ↔ Spent L f := by
  cases f <;> simp [Spent, Failure.locate]

@[simp] theorem Open.locate {f : Failure} {position : SourcePosition} :
    Open L (f.locate position) ↔ Open L f := by
  cases f <;> simp [Open, Failure.locate]

namespace Fails

variable {x : Step σ β} {s : σ} {f : Failure}

theorem bind {k : β → Step σ γ} (h : Fails L env x s f) : Fails L env (x >>= k) s f :=
  h.imp_right fun h => .bind (h.mono (fun _ _ h => h.elim) fun _ h => h)

theorem after {k : β → Step σ γ}
    (h : Ensures env x s (fun b s' => Fails L env (k b) s' f) (Spent L)) :
    Fails L env (x >>= k) s f := by
  by_cases ho : Open L f
  · exact .inl ho
  · exact .inr (.bind (h.mono (fun _ _ h => h.resolve_left ho) fun _ h => .inr h))

theorem part {whole : υ → τ} {u : υ} {t : τ} {x : Step υ β} (h : Fails L env x u f) :
    Fails L env (Step.part whole u x) t f :=
  h.imp_right fun h => .part (h.mono (fun _ _ h => h) fun _ h => h)

theorem locate {position : SourcePosition} (h : Fails L env x s f) :
    Fails L env (x.locate position) s (f.locate position) := by
  refine h.imp (fun h => by simpa using h) fun h => .locate (h.mono (fun _ _ h => h) fun f' h => ?_)
  rcases h with rfl | h
  · exact .inl rfl
  · exact .inr (by simpa using h)

theorem exhausted : Fails L env (Run.exhausted : Step σ β) s .exhausted :=
  .inr fun _ => .inl rfl

theorem raised {e : EngineError} : Fails L env (Run.raise e : Step σ β) s (.raised e) :=
  .inr fun _ => .inl rfl

end Fails

/-! ## Computations inside steps -/

theorem Answers.lift {x : Engine α} {a : α} {s : σ} {Q : α → σ → Prop} {E : Failure → Prop}
    (h : Answers L env x (.ok a)) (hq : Q a s) (he : ∀ f, Spent L f → E f) :
    Ensures env (Step.lift x) s Q E := by
  intro r
  have hx := (h.resolve_left (by simp)) r
  simp only [Step.lift]
  cases hr : x env r with
  | ok b t =>
    rw [hr] at hx
    cases hx
    exact hq
  | error f t =>
    rw [hr] at hx
    exact he _ (hx.resolve_left (by simp))

theorem Answers.fails {x : Engine α} {f : Failure} (h : Answers L env x (.error f)) {s : σ} :
    Fails L env (Step.lift x) s f := by
  refine h.imp (fun h => ⟨h.2, by simpa using h.1⟩) fun h r => ?_
  have hx := h r
  simp only [Step.lift]
  cases hr : x env r with
  | ok b t =>
    rw [hr] at hx
    cases hx
  | error g t =>
    rw [hr] at hx
    exact hx.imp_left fun h => by simpa using h.symm

theorem ensures_lift {x : Engine α} {s : σ} {Q : α → σ → Prop} {E : Failure → Prop}
    (h : ∀ r, match x env r with | .ok a _ => Q a s | .error f _ => E f) :
    Ensures env (Step.lift x) s Q E := by
  intro r
  have hx := h r
  simp only [Step.lift]
  cases hr : x env r with
  | ok a t => rw [hr] at hx; exact hx
  | error f t => rw [hr] at hx; exact hx

theorem Ensures.lift_bind {x : Engine α} {f : α → Engine β} {s : σ} {Q : β → σ → Prop}
    {E : Failure → Prop}
    (h : Ensures env (Step.lift x) s (fun a s' => Ensures env (Step.lift (f a)) s' Q E) E) :
    Ensures env (Step.lift (x >>= f)) s Q E := by
  refine ensures_lift fun r => ?_
  have hx := h r
  simp only [Step.lift, Bind.bind, ReaderT.bind, EStateM.bind] at hx ⊢
  cases hr : x env r with
  | error e r' => rw [hr] at hx; exact hx
  | ok a r' =>
    rw [hr] at hx
    have hf := hx r'
    simp only [Step.lift] at hf
    dsimp only
    cases hr' : f a env r' with
    | error e r'' => rw [hr'] at hf; exact hf
    | ok b r'' => rw [hr'] at hf; exact hf

/-- A step that is run from a state which is dropped afterwards. -/
theorem Ensures.lift_eval {x : Step τ β} {u : τ} {s : σ} {Q : β → σ → Prop} {E : Failure → Prop}
    (h : Ensures env x u (fun b _ => Q b s) E) : Ensures env (Step.lift (Step.eval u x)) s Q E := by
  refine ensures_lift fun r => ?_
  have hx := h r
  simp only [Step.eval]
  cases hr : x env (u, r) with
  | ok b s' => rw [hr] at hx; exact hx
  | error f s' => rw [hr] at hx; exact hx

/-! ## Traces -/

section
variable (L) (env : Environment) (x : Step σ (Option α))

/-- A pull hands out the first result of a trace and leaves a state and a trace of `P`; it leaves a
state of `I` once the trace is through. -/
def Hands (s : σ) (I : σ → Prop) (P : σ → Trace α → Prop) : Trace α → Prop
  | .done => Ensures env x s (fun o s' => o = none ∧ I s') (Spent L)
  | .failed f => Fails L env x s f
  | .item a t => Ensures env x s (fun o s' => o = some a ∧ P s' t) (Spent L)

/-- Pulling again and again from `s` gives a trace; every state on the way is in `I`. -/
def Pulls (I : σ → Prop) : σ → Trace α → Prop
  | s, .done => I s ∧ Ensures env x s (fun o s' => o = none ∧ I s') (Spent L)
  | s, .failed f => I s ∧ Fails L env x s f
  | s, .item a t => I s ∧ Ensures env x s (fun o s' => o = some a ∧ Pulls I s' t) (Spent L)

/-- `x` run from `s` ends in the result `d`, and in a state of `I` if it does not fail. -/
def Gives {β : Type} (x : Step σ β) (s : σ) (I : σ → Prop) : Except Failure β → Prop
  | .ok b => Ensures env x s (fun b' s' => b' = b ∧ I s') (Spent L)
  | .error f => Fails L env x s f

end

section
variable {x : Step σ (Option α)} {s : σ} {P : σ → Trace α → Prop} {I : σ → Prop}

theorem hands_done : Hands L env x s I P .done ↔
    Ensures env x s (fun o s' => o = none ∧ I s') (Spent L) := Iff.rfl

theorem hands_failed {f : Failure} : Hands L env x s I P (.failed f) ↔ Fails L env x s f :=
  Iff.rfl

theorem hands_item {a : α} {t : Trace α} : Hands L env x s I P (.item a t) ↔
    Ensures env x s (fun o s' => o = some a ∧ P s' t) (Spent L) := Iff.rfl

theorem gives_ok {x : Step σ β} {b : β} : Gives L env x s I (.ok b) ↔
    Ensures env x s (fun b' s' => b' = b ∧ I s') (Spent L) := Iff.rfl

theorem gives_error {x : Step σ β} {f : Failure} :
    Gives L env x s I (.error f) ↔ Fails L env x s f := Iff.rfl

end

theorem Pulls.inv {x : Step σ (Option α)} {I : σ → Prop} {s : σ} :
    ∀ {t : Trace α}, Pulls L env x I s t → I s
  | .done, h | .failed _, h | .item _ _, h => h.1

theorem Pulls.of_relation {x : Step σ (Option α)} {I : σ → Prop} {R : σ → Trace α → Prop}
    (hinv : ∀ s t, R s t → I s) (hstep : ∀ s t, R s t → Hands L env x s I R t) :
    ∀ (t : Trace α) (s : σ), R s t → Pulls L env x I s t
  | .done, s, h =>
    ⟨hinv s _ h, hands_done.mp (hstep s .done h)⟩
  | .failed _, s, h => ⟨hinv s _ h, hands_failed.mp (hstep s _ h)⟩
  | .item _ t, s, h =>
    ⟨hinv s _ h, (hands_item.mp (hstep s (.item _ t) h)).mono
      (fun _ _ h => ⟨h.1, of_relation hinv hstep t _ h.2⟩) fun _ => id⟩

theorem Pulls.mono {x : Step σ (Option α)} {I J : σ → Prop} (hij : ∀ s, I s → J s) {t : Trace α}
    {s : σ} (h : Pulls L env x I s t) : Pulls L env x J s t := by
  induction t generalizing s with
  | done => exact ⟨hij _ h.1, h.2.mono (fun _ _ h => ⟨h.1, hij _ h.2⟩) fun _ => id⟩
  | failed f => exact ⟨hij _ h.1, h.2⟩
  | item a t ih => exact ⟨hij _ h.1, h.2.mono (fun _ _ h => ⟨h.1, ih h.2⟩) fun _ => id⟩

/-- A pull that pulls a part of the state and hands on what it gets. -/
theorem Pulls.through {w : υ → σ} {x : Step υ (Option α)} {y : Step σ (Option α)}
    {I : υ → Prop} {J : σ → Prop} (hJ : ∀ u, I u → J (w u))
    (hy : ∀ u Q E, I u → Ensures env x u (fun o u' => Q o (w u')) E →
      Ensures env y (w u) Q E) {t : Trace α} {u : υ} (h : Pulls L env x I u t) :
    Pulls L env y J (w u) t := by
  induction t generalizing u with
  | done =>
    exact ⟨hJ u h.1, hy _ _ _ h.1 (h.2.mono (fun _ _ h => ⟨h.1, hJ _ h.2⟩) fun _ => id)⟩
  | failed f => exact ⟨hJ u h.1, h.2.imp_right (hy _ _ _ h.1)⟩
  | item a t ih =>
    exact ⟨hJ u h.1, hy _ _ _ h.1 (h.2.mono (fun _ _ h => ⟨h.1, ih h.2⟩) fun _ => id)⟩

namespace Gives

variable {x : Step σ β} {s : σ} {I : σ → Prop} {d : Except Failure β}

theorem exhausted (hcut : L) : Gives L env (Run.exhausted : Step σ β) s I d := by
  cases d with
  | ok b => exact gives_ok.mpr fun _ => ⟨hcut, rfl⟩
  | error f => exact gives_error.mpr (.inr fun _ => .inr ⟨hcut, rfl⟩)

theorem bind {k : β → Step σ γ} {d : Except Failure γ}
    (h : Ensures env x s (fun b s' => Gives L env (k b) s' I d) (Spent L)) :
    Gives L env (x >>= k) s I d := by
  cases d with
  | ok b => exact gives_ok.mpr (Ensures.bind h)
  | error f => exact gives_error.mpr (Fails.after h)

theorem bind_of {J : σ → Prop} {k : β → Step σ γ} {e : β → Except Failure γ}
    (h : Gives L env x s J d) (hk : ∀ b s', d = .ok b → J s' → Gives L env (k b) s' I (e b)) :
    Gives L env (x >>= k) s I (d >>= e) := by
  cases d with
  | error f => exact gives_error.mpr (Fails.bind (gives_error.mp h))
  | ok b =>
    refine .bind ((gives_ok.mp h).mono ?_ fun _ => id)
    rintro b s' ⟨rfl, hs⟩
    exact hk b s' rfl hs

theorem pure {b : β} (h : I s) : Gives L env (Pure.pure b) s I (.ok b) :=
  gives_ok.mpr (.pure ⟨rfl, h⟩)

theorem mono {J : σ → Prop} (h : Gives L env x s I d) (hj : ∀ s, I s → J s) :
    Gives L env x s J d := by
  cases d with
  | ok b => exact gives_ok.mpr ((gives_ok.mp h).mono (fun _ _ h => ⟨h.1, hj _ h.2⟩) fun _ => id)
  | error f => exact h

theorem locate {position : SourcePosition} (h : Gives L env x s I d) :
    Gives L env (x.locate position) s I (d.mapError (·.locate position)) := by
  cases d with
  | ok b =>
    exact gives_ok.mpr (.locate ((gives_ok.mp h).mono (fun _ _ => id) fun _ => Spent.locate.mpr))
  | error f => exact gives_error.mpr (.locate (gives_error.mp h))

theorem part {w : υ → τ} {u : υ} {t : τ} {x : Step υ β} {I : υ → Prop} {J : τ → Prop}
    {k : β × υ → Step τ γ} {e : β → Except Failure γ} (h : Gives L env x u I d)
    (hk : ∀ b u', d = .ok b → I u' → Gives L env (k (b, u')) (w u') J (e b)) :
    Gives L env (Step.part w u x >>= k) t J (d >>= e) := by
  cases d with
  | error f => exact gives_error.mpr (.bind (.part (gives_error.mp h)))
  | ok b =>
    refine .bind (.part ((gives_ok.mp h).mono ?_ fun _ => id))
    rintro b u' ⟨rfl, hu⟩
    exact hk b u' rfl hu

/-- A step on a part of the state, whose value is handed on. -/
theorem whole {w : υ → τ} {u : υ} {t : τ} {x : Step υ β} {I : υ → Prop} {J : τ → Prop}
    (h : Gives L env x u I d) (hj : ∀ u, I u → J (w u)) :
    Gives L env (do
      let (b, _) ← Step.part w u x
      return b) t J d := by
  have := h.part (w := w) (t := t) (J := J) (k := fun p => Pure.pure p.1) (e := Pure.pure)
    fun b u _ hu => .pure (hj u hu)
  rwa [bind_pure] at this

theorem ofResult {r : EngineResult β} (hs : I s) : Gives L env (Run.ofResult r) s I r.raised := by
  cases r with
  | ok b => exact .pure hs
  | error e => exact gives_error.mpr .raised

theorem lift {x : Engine β} (h : Answers L env x d) (hs : I s) :
    Gives L env (Step.lift x) s I d := by
  cases d with
  | ok b => exact gives_ok.mpr (h.lift ⟨rfl, hs⟩ fun _ => id)
  | error f => exact gives_error.mpr h.fails

/-- What a step gives that is run from a state which is dropped afterwards. -/
theorem eval (h : Gives L env x s I d) : Answers L env (Step.eval s x) d := by
  cases d with
  | ok b =>
    refine .inr fun r => ?_
    have hx := gives_ok.mp h r
    simp only [Step.eval]
    cases hr : x env (s, r) with
    | ok b' s' =>
      rw [hr] at hx
      exact congrArg _ hx.1.symm
    | error f s' =>
      rw [hr] at hx
      exact .inr hx
  | error f =>
    refine (gives_error.mp h).imp (fun h => ⟨by rw [h.2], h.1⟩) fun h r => ?_
    have hx := h r
    simp only [Step.eval]
    cases hr : x env (s, r) with
    | ok b' s' =>
      rw [hr] at hx
      exact hx.elim
    | error f' s' =>
      rw [hr] at hx
      exact hx.imp_left (congrArg _ ·.symm)

end Gives

namespace Hands

variable {s : σ} {I : σ → Prop} {P P' : σ → Trace α → Prop} {t : Trace α}

theorem bind {y : Step σ β} {k : β → Step σ (Option α)}
    (h : Ensures env y s (fun b s' => Hands L env (k b) s' I P t) (Spent L)) :
    Hands L env (y >>= k) s I P t := by
  cases t with
  | done => exact hands_done.mpr (.bind h)
  | failed f => exact hands_failed.mpr (.after h)
  | item a t => exact hands_item.mpr (.bind h)

/-- The computation that the pull starts with fails. -/
theorem fails {y : Step σ β} {k : β → Step σ (Option α)} {f : Failure} (h : Fails L env y s f) :
    Hands L env (y >>= k) s I P (.failed f) := hands_failed.mpr h.bind

theorem exhausted (hcut : L) : Hands L env (Run.exhausted : Step σ (Option α)) s I P t := by
  cases t with
  | done => exact hands_done.mpr fun _ => ⟨hcut, rfl⟩
  | failed f => exact hands_failed.mpr (.inr fun _ => .inr ⟨hcut, rfl⟩)
  | item a t => exact hands_item.mpr fun _ => ⟨hcut, rfl⟩

theorem none (h : I s) : Hands L env (pure none) s I P .done :=
  hands_done.mpr (.pure ⟨rfl, h⟩)

theorem some {a : α} (h : P s t) : Hands L env (pure (some a)) s I P (.item a t) :=
  hands_item.mpr (.pure ⟨rfl, h⟩)

theorem mono {x : Step σ (Option α)} (h : Hands L env x s I P t) (hp : ∀ s t, P s t → P' s t) :
    Hands L env x s I P' t := by
  cases t with
  | done => exact h
  | failed f => exact h
  | item a t => exact hands_item.mpr ((hands_item.mp h).mono (fun _ _ h => ⟨h.1, hp _ _ h.2⟩) fun _ => id)

/-- Computes a value first; without one the trace fails. -/
theorem lift {y : Engine β} {d : Except Failure β} {k : β → Step σ (Option α)} {f : β → Trace α}
    (h : Answers L env y d) (hk : ∀ b, d = .ok b → Hands L env (k b) s I P (f b)) :
    Hands L env (Step.lift y >>= k) s I P (.attempt d f) := by
  cases d with
  | ok b => exact .bind (h.lift (hk b rfl) fun _ h => h)
  | error e => exact .fails h.fails

/-- Takes the value of a result first; without one the trace fails. -/
theorem ofResult {r : EngineResult β} {k : β → Step σ (Option α)} {f : β → Trace α}
    (hk : ∀ b, r = .ok b → Hands L env (k b) s I P (f b)) :
    Hands L env (Run.ofResult r >>= k) s I P (.attempt r.raised f) := by
  cases r with
  | ok b => exact .bind (.pure (hk b rfl))
  | error e => exact .fails .raised

/-- Pulls a part of the state first. -/
theorem pull {whole : υ → σ} {u : υ} {y : Step υ (Option β)} {J : υ → Prop} {tu : Trace β}
    {k : Option β × υ → Step σ (Option α)} (h : Pulls L env y J u tu)
    (hdone : tu = .done → ∀ u', J u' → Hands L env (k (.none, u')) (whole u') I P t)
    (hfail : ∀ f, tu = .failed f → t = .failed f)
    (hitem : ∀ b tu', tu = .item b tu' → ∀ u', Pulls L env y J u' tu' →
      Hands L env (k (.some b, u')) (whole u') I P t) :
    Hands L env (Step.part whole u y >>= k) s I P t := by
  cases tu with
  | done =>
    refine .bind (.part (h.2.mono (fun o u' ho => ?_) fun _ => id))
    obtain ⟨rfl, hi⟩ := ho
    exact hdone rfl u' hi
  | failed f =>
    rw [hfail f rfl]
    exact .fails (.part h.2)
  | item b tu' =>
    refine .bind (.part (h.2.mono (fun o u' ho => ?_) fun _ => id))
    obtain ⟨rfl, hp⟩ := ho
    exact hitem b tu' rfl u' hp

end Hands
end HybridQuery
