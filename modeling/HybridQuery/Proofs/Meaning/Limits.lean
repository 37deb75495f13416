import Mathlib.Order.Filter.AtTopBot.Basic
import HybridQuery.Proofs.Meaning.Ensures

/-!
# Computations that follow a computation

A family of computations, one for each depth, follows a computation if from some depth on every member
ends as that one does. Both sorts of depths that matter are filters: all large ones, and a single one.

* `Engine.Steady`: a computation whose outcome does not depend on what was recorded before.
* `Tends`: a family follows a steady computation. There is a rule for every way to combine
  computations, so that whatever is made of evaluations of plans follows what the evaluations follow.
-/

namespace HybridQuery

open Filter

variable {env : Environment} {α β γ : Type}

/-! ## Outcomes that do not depend on the record -/

namespace Engine

/-- The outcome does not depend on what was recorded before. -/
def Steady (env : Environment) (x : Engine α) : Prop :=
  ∀ r, match x env r with
    | .ok a _ => x.result env = .ok a
    | .error f _ => x.result env = .error f

theorem result_bind {x : Engine α} {f : α → Engine β}
    (hf : ∀ a, x.result env = .ok a → Steady env (f a)) :
    (x >>= f).result env = (x.result env >>= fun a => (f a).result env) := by
  simp only [result, Bind.bind, ReaderT.bind, EStateM.bind] at hf ⊢
  cases hx : x env .empty with
  | error f r => rfl
  | ok a r =>
    have := hf a (by rw [hx]) r
    simp only [Except.bind]
    cases hx : f a env r with
    | ok b _ => rw [hx] at this; exact this.symm.trans rfl
    | error e _ => rw [hx] at this; exact this.symm.trans rfl

theorem result_bind_ok {x : Engine α} {f : α → Engine β} {b : β}
    (hf : ∀ a, x.result env = .ok a → Steady env (f a)) (h : (x >>= f).result env = .ok b) :
    ∃ a, x.result env = .ok a ∧ (f a).result env = .ok b := by
  rw [result_bind hf] at h
  cases hx : x.result env with
  | error e => rw [hx] at h; cases h
  | ok a => rw [hx] at h; exact ⟨a, rfl, h⟩

/-- What only records something does not change the result of what follows. -/
theorem result_note_bind {x : Engine Unit} {f : Unit → Engine β} (hx : x.result env = .ok ())
    (hf : (f ()).Steady env) : (x >>= f).result env = (f ()).result env := by
  rw [result_bind fun _ _ => hf, hx]
  rfl

theorem result_given {r : Environment → Except Failure α} : (given r).result env = r env := by
  simp only [result, given]
  cases r env <;> rfl

theorem result_ofResult {r : EngineResult α} : Engine.result (Run.ofResult r) env = r.raised := by
  cases r <;> rfl

theorem result_locate {x : Engine α} {position : SourcePosition} :
    result (Run.locate x position) env = (x.result env).mapError (·.locate position) := by
  simp only [result, Run.locate]
  cases x env .empty <;> rfl

end Engine

/-! ## Answers -/

section
variable {L : Prop} {x : Engine α} {d : Except Failure α}

theorem Engine.Steady.answers (h : x.Steady env) : Answers L env x (x.result env) := by
  refine .inr fun r => ?_
  have := h r
  cases hx : x env r with
  | ok a _ => rw [hx] at this; exact this
  | error f _ => rw [hx] at this; exact .inl this

theorem Answers.bind {f : α → Engine β} {e : α → Except Failure β} (h : Answers L env x d)
    (hf : ∀ a, d = .ok a → Answers L env (f a) (e a)) : Answers L env (x >>= f) (d >>= e) := by
  obtain ⟨rfl, hcut⟩ | h := h
  · exact .inl ⟨rfl, hcut⟩
  by_cases hd : (∃ a, d = .ok a ∧ e a = .error .exhausted) ∧ ¬L
  · obtain ⟨⟨a, rfl, he⟩, hcut⟩ := hd
    exact .inl ⟨he, hcut⟩
  refine .inr fun r => ?_
  have hx := h r
  simp only [Bind.bind, ReaderT.bind, EStateM.bind]
  cases hr : x env r with
  | error f r' =>
    rw [hr] at hx
    exact hx.imp_left fun h => by rw [h]; rfl
  | ok a r' =>
    rw [hr] at hx
    have hx : d = .ok a := hx
    subst hx
    exact (hf a rfl).resolve_left (fun h => hd ⟨⟨a, rfl, h.1⟩, h.2⟩) r'

theorem Answers.locate {position : SourcePosition} (h : Answers L env x d) :
    Answers L env (x.locate position) (d.mapError (·.locate position)) := by
  refine h.imp (fun h => ⟨by rw [h.1]; rfl, h.2⟩) fun h r => ?_
  have hx := h r
  simp only [Run.locate]
  cases hr : x env r with
  | ok a r' =>
    rw [hr] at hx
    have hx : d = .ok a := hx
    rw [hx]; rfl
  | error f r' =>
    rw [hr] at hx
    exact hx.imp (fun h => by rw [h]; rfl) Spent.locate.mpr

end

/-- What holds from some depth on for each value that a result may have holds for its value. -/
theorem eventually_of_ok {F : Filter ℕ} {d : Except Failure α} {P : ℕ → α → Prop}
    (h : ∀ a, d = .ok a → ∀ᶠ j in F, P j a) : ∀ᶠ j in F, ∀ a, d = .ok a → P j a := by
  cases d with
  | error e => exact .of_forall fun j a ha => nomatch ha
  | ok a =>
    filter_upwards [h a rfl] with j hj b hb
    cases hb
    exact hj

/-- What holds from some depth on for each member of a list holds for all of them. -/
theorem eventually_forall_mem {F : Filter ℕ} {l : List α} {P : ℕ → α → Prop}
    (h : ∀ a, ∀ᶠ j in F, P j a) : ∀ᶠ j in F, ∀ a ∈ l, P j a := by
  induction l with
  | nil => exact .of_forall fun j a ha => nomatch ha
  | cons a l ih =>
    filter_upwards [h a, ih] with j hj hl
    simpa using ⟨hj, hl⟩

/-! ## Limits -/

/-- From some depth on the members of a family end as a steady computation does. -/
def Tends (F : Filter ℕ) (L : Prop) (env : Environment) (x : ℕ → Engine α) (y : Engine α) : Prop :=
  y.Steady env ∧ ∀ᶠ j in F, Answers L env (x j) (y.result env)

namespace Tends

variable {F : Filter ℕ} {L : Prop} {x : ℕ → Engine α} {y : Engine α}

theorem of_steady {y : Engine α} (h : y.Steady env) : Tends F L env (fun _ => y) y :=
  ⟨h, .of_forall fun _ => h.answers⟩

/-- At a single depth a family follows a computation if its member ends as that does. -/
theorem pure_iff {x y : Engine α} :
    Tends (Pure.pure 0) L env (fun _ => x) y ↔ y.Steady env ∧ Answers L env x (y.result env) := by
  simp [Tends]

theorem pure (a : α) : Tends F L env (fun _ => Pure.pure a) (Pure.pure a) :=
  .of_steady fun _ => rfl

theorem given {x : ℕ → Engine α} {r : Environment → Except Failure α}
    (h : ∀ᶠ j in F, Answers L env (x j) (r env)) : Tends F L env x (Engine.given r) := by
  refine ⟨fun record => ?_, by rwa [Engine.result_given]⟩
  rw [Engine.result_given]
  simp only [Engine.given]
  cases r env <;> rfl

theorem raise (e : EngineError) : Tends F L env (fun _ => Run.raise (α := α) e) (Run.raise e) :=
  .of_steady fun _ => rfl

theorem fail (fault : Fault) : Tends F L env (fun _ => Run.fail (α := α) fault) (Run.fail fault) :=
  raise _

theorem ofResult (r : EngineResult α) :
    Tends F L env (fun _ => Run.ofResult r) (Run.ofResult r) := by
  cases r with
  | ok a => exact pure a
  | error e => exact raise e

theorem environment : Tends F L env (fun _ => Run.environment) Run.environment :=
  .of_steady fun _ => rfl

theorem count (change : Metrics → Metrics) :
    Tends F L env (fun _ => Engine.count change) (Engine.count change) := .of_steady fun _ => rfl

theorem log (event : Event) (fields : List LogField) :
    Tends F L env (fun _ => Engine.log event fields) (Engine.log event fields) :=
  .of_steady fun _ => rfl

theorem consult (path : String) :
    Tends F L env (fun _ => Engine.consult path) (Engine.consult path) := .of_steady fun _ => rfl

theorem bind_of {f : ℕ → α → Engine β} {g : α → Engine β} (h : Tends F L env x y)
    (hf : ∀ a, y.result env = .ok a → Tends F L env (fun j => f j a) (g a)) :
    Tends F L env (fun j => x j >>= f j) (y >>= g) := by
  refine ⟨fun r => ?_, ?_⟩
  · have hy := h.1 r
    rw [Engine.result_bind fun a ha => (hf a ha).1]
    simp only [Bind.bind, ReaderT.bind, EStateM.bind]
    cases hr : y env r with
    | error f r' => rw [hr] at hy; rw [hy]; rfl
    | ok a r' => rw [hr] at hy; rw [hy]; exact (hf a hy).1 r'
  · rw [Engine.result_bind fun a ha => (hf a ha).1]
    cases hd : y.result env with
    | error e =>
      filter_upwards [h.2] with j hj
      rw [hd] at hj
      exact hj.bind fun a ha => nomatch ha
    | ok a =>
      filter_upwards [h.2, (hf a hd).2] with j hj hfj
      rw [hd] at hj
      refine hj.bind fun b hb => ?_
      cases hb
      exact hfj

theorem bind {f : ℕ → α → Engine β} {g : α → Engine β} (h : Tends F L env x y)
    (hf : ∀ a, Tends F L env (fun j => f j a) (g a)) :
    Tends F L env (fun j => x j >>= f j) (y >>= g) := h.bind_of fun a _ => hf a

theorem locate (h : Tends F L env x y) (position : SourcePosition) :
    Tends F L env (fun j => Run.locate (x j) position) (Run.locate y position) := by
  refine ⟨fun r => ?_, ?_⟩
  · have hy := h.1 r
    rw [Engine.result_locate]
    simp only [Run.locate]
    cases hr : y env r <;> (rw [hr] at hy; rw [hy]; rfl)
  · filter_upwards [h.2] with j hj
    rw [Engine.result_locate]
    exact hj.locate

theorem map (f : α → β) (h : Tends F L env x y) :
    Tends F L env (fun j => f <$> x j) (f <$> y) := h.bind fun a => pure (f a)

theorem steady_bind {x : Engine α} {f : α → Engine β} (hx : x.Steady env)
    (hf : ∀ a, (f a).Steady env) : (x >>= f).Steady env :=
  (bind (F := ⊥) (L := True) (f := fun _ => f) (of_steady hx) fun a => of_steady (hf a)).1

/-! ### Lists and collections -/

section
variable {f : ℕ → α → Engine β} {g : α → Engine β}

theorem listMapM_of_mem {l : List α} (hf : ∀ a ∈ l, Tends F L env (fun j => f j a) (g a)) :
    Tends F L env (fun j => l.mapM (f j)) (l.mapM g) := by
  induction l with
  | nil => exact pure []
  | cons a l ih =>
    simp only [List.mapM_cons]
    exact (hf a (by simp)).bind fun b => (ih fun a ha => hf a (by simp [ha])).bind
      fun l => pure (b :: l)

theorem listMapM (hf : ∀ a, Tends F L env (fun j => f j a) (g a)) (l : List α) :
    Tends F L env (fun j => l.mapM (f j)) (l.mapM g) := listMapM_of_mem fun a _ => hf a

theorem collectionMapM (hf : ∀ a, Tends F L env (fun j => f j a) (g a)) (c : Collection α) :
    Tends F L env (fun j => c.mapM (f j)) (c.mapM g) :=
  (listMapM (fun partition => listMapM hf partition) c.partitions).bind fun _ => pure _

theorem flatMapM_of_mem {f : ℕ → α → Engine (List β)} {g : α → Engine (List β)} {c : Collection α}
    (hf : ∀ a ∈ c.records, Tends F L env (fun j => f j a) (g a)) :
    Tends F L env (fun j => c.flatMapM (f j)) (c.flatMapM g) :=
  (listMapM_of_mem fun _ hp => (listMapM_of_mem fun a ha =>
    hf a (List.mem_flatten_of_mem hp ha)).bind fun _ => pure _).bind fun _ => pure _

theorem flatMapM {f : ℕ → α → Engine (List β)} {g : α → Engine (List β)}
    (hf : ∀ a, Tends F L env (fun j => f j a) (g a)) (c : Collection α) :
    Tends F L env (fun j => c.flatMapM (f j)) (c.flatMapM g) := flatMapM_of_mem fun a _ => hf a

theorem filterM {f : ℕ → α → Engine Bool} {g : α → Engine Bool}
    (hf : ∀ a, Tends F L env (fun j => f j a) (g a)) (c : Collection α) :
    Tends F L env (fun j => c.filterM (f j)) (c.filterM g) :=
  flatMapM (fun a => (hf a).bind fun _ => pure _) c

end

/-! ### Crossing to the host -/

theorem materialize (c : Collection α) (position : SourcePosition) :
    Tends F L env (fun _ => Engine.materialize c position) (Engine.materialize c position) :=
  environment.bind fun _ => (ofResult _).bind fun _ => (count _).bind fun _ => (log _ _).bind
    fun _ => pure _

theorem items (value : Value Item) (position : SourcePosition) :
    Tends F L env (fun _ => Engine.items value position) (Engine.items value position) := by
  cases value with
  | items items => exact pure items
  | rows rows => exact materialize rows position
  | columns frame => exact materialize frame.toRows position

theorem rows (value : Value Item) :
    Tends F L env (fun _ => Engine.rows value) (Engine.rows value) := by
  cases value with
  | items items => exact environment.bind fun _ => pure _
  | rows rows => exact pure rows
  | columns frame => exact pure frame.toRows

end Tends
end HybridQuery
