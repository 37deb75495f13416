import HybridQuery.Evaluation.Protocol

/-!
# Where computations end

A computation ends in a value or in a failure, and it leaves a state either way. What is asked of both is carried
through a computation from its parts.

* `Run.Lands`: the judgement on a computation and the state that it starts from. It can be decided where its two
  properties can.
* `Run.Lands.bind` and its like: one rule for every way to make a computation.
-/

namespace HybridQuery

variable {σ τ υ α β : Type} {env : Environment}

/-- An environment that is not looked at need not be read. -/
theorem Run.environment_bind (x : Run σ α) : (Run.environment >>= fun _ => x) = x :=
  funext fun _ => funext fun _ => rfl

/-- A computation ends in a value and a state of `Q`, or it fails in a state of `E`. -/
def Run.Lands (env : Environment) (x : Run σ α) (s : σ) (Q : α → σ → Prop) (E : σ → Prop) : Prop :=
  match x env s with
  | .ok a s => Q a s
  | .error _ s => E s

namespace Run.Lands

variable {x : Run σ α} {s : σ} {Q Q' : α → σ → Prop} {E E' : σ → Prop}

theorem mono (h : Lands env x s Q E) (hq : ∀ a s, Q a s → Q' a s) (he : ∀ s, E s → E' s) :
    Lands env x s Q' E' := by
  unfold Lands at h ⊢
  cases hx : x env s with
  | ok a s => rw [hx] at h; exact hq a s h
  | error f s => rw [hx] at h; exact he s h

theorem bind {f : α → Run σ β} {Q : β → σ → Prop} (h : Lands env x s (fun a s => Lands env (f a) s Q E) E) :
    Lands env (x >>= f) s Q E := by
  unfold Lands at h ⊢
  simp only [Bind.bind, ReaderT.bind, EStateM.bind]
  cases hx : x env s with
  | ok a s => rw [hx] at h; exact h
  | error f s => rw [hx] at h; exact h

instance [∀ a s, Decidable (Q a s)] [∀ s, Decidable (E s)] : Decidable (Lands env x s Q E) :=
  match h : x env s with
  | .ok a s' => decidable_of_iff (Q a s') (by rw [Lands, h])
  | .error _ s' => decidable_of_iff (E s') (by rw [Lands, h])

/-- A computation ends where it ends. -/
theorem self : Lands env x s (fun a s' => x env s = .ok a s') fun s' => ∃ f, x env s = .error f s' := by
  unfold Lands
  cases x env s with
  | ok a s' => rfl
  | error f s' => exact ⟨f, rfl⟩

theorem pure {a : α} (h : Q a s) : Lands env (Pure.pure a) s Q E := h

theorem fail {fault : Fault} (h : E s) : Lands env (Run.fail fault) s Q E := h

theorem environment {Q : Environment → σ → Prop} (h : Q env s) : Lands env Run.environment s Q E := h

theorem ofResult {d : EngineResult α} (hq : ∀ a, d = .ok a → Q a s) (he : ∀ e, d = .error e → E s) :
    Lands env (Run.ofResult d) s Q E := by
  cases d with
  | ok a => exact hq a rfl
  | error e => exact he e rfl

theorem locate {position : SourcePosition} (h : Lands env x s Q E) : Lands env (x.locate position) s Q E := by
  unfold Lands at h ⊢
  rw [Run.locate]
  cases hx : x env s with
  | ok a s => rw [hx] at h; exact h
  | error f s => rw [hx] at h; exact h

theorem onFailure {cleanUp : Run σ Unit}
    (h : Lands env x s Q fun s => Lands env cleanUp s (fun _ => E) E) : Lands env (x.onFailure cleanUp) s Q E := by
  unfold Lands at h ⊢
  rw [Run.onFailure]
  cases hx : x env s with
  | ok a s => rw [hx] at h; exact h
  | error f s =>
    rw [hx] at h
    change Lands env cleanUp s _ _ at h
    unfold Lands at h
    cases hc : cleanUp env s with
    | ok u s => rw [hc] at h; simpa only [hc] using h
    | error g s => rw [hc] at h; simpa only [hc] using h

/-! ### Steps -/

theorem read {t : τ} {r : RunRecord} {Q : τ → τ × RunRecord → Prop} {E : τ × RunRecord → Prop} (h : Q t (t, r)) :
    Lands env Step.read (t, r) Q E := h

theorem write {t u : τ} {r : RunRecord} {Q : Unit → τ × RunRecord → Prop} {E : τ × RunRecord → Prop}
    (h : Q () (u, r)) : Lands env (Step.write u) (t, r) Q E := h

theorem lift {x : Engine α} {t : τ} {r : RunRecord} {Q : α → τ × RunRecord → Prop} {E : τ × RunRecord → Prop}
    (h : Lands env x r (fun a r => Q a (t, r)) fun r => E (t, r)) : Lands env (Step.lift x) (t, r) Q E := by
  unfold Lands at h ⊢
  rw [Step.lift]
  cases hx : x env r with
  | ok a r => rw [hx] at h; exact h
  | error f r => rw [hx] at h; exact h

theorem part {whole : υ → τ} {u : υ} {t : τ} {r : RunRecord} {x : Step υ α} {Q : α × υ → τ × RunRecord → Prop}
    {E : τ × RunRecord → Prop}
    (h : Lands env x (u, r) (fun a s => Q (a, s.1) (whole s.1, s.2)) fun s => E (whole s.1, s.2)) :
    Lands env (Step.part whole u x) (t, r) Q E := by
  unfold Lands at h ⊢
  simp only [Step.part]
  cases hx : x env (u, r) with
  | ok a s => rw [hx] at h; exact h
  | error f s => rw [hx] at h; exact h

theorem eval {t : τ} {r : RunRecord} {x : Step τ α} {Q : α → RunRecord → Prop} {E : RunRecord → Prop}
    (h : Lands env x (t, r) (fun a s => Q a s.2) fun s => E s.2) : Lands env (Step.eval t x) r Q E := by
  unfold Lands at h ⊢
  rw [Step.eval]
  cases hx : x env (t, r) with
  | ok a s => rw [hx] at h; exact h
  | error f s => rw [hx] at h; exact h

/-! ### The engine -/

section
variable {r : RunRecord} {E : RunRecord → Prop}

theorem count {change : Metrics → Metrics} {Q : Unit → RunRecord → Prop}
    (h : Q () { r with metrics := change r.metrics }) : Lands env (Engine.count change) r Q E := h

theorem log {event : Event} {fields : List LogField} {Q : Unit → RunRecord → Prop}
    (h : ∀ r', r'.metrics = r.metrics → Q () r') : Lands env (Engine.log event fields) r Q E := by
  refine h _ ?_
  split <;> rfl

theorem consult {path : String} {Q : Unit → RunRecord → Prop} (h : ∀ r', r'.metrics = r.metrics → Q () r') :
    Lands env (Engine.consult path) r Q E := by
  refine h _ ?_
  split <;> rfl

end

end Run.Lands

end HybridQuery
