import HybridQuery.Proofs.Meaning.Contracts

/-!
# Successes that carry over

What succeeds also succeeds in another way, with a related outcome. Nothing is said where it fails.

* `Carries`, `Engine.Carries`, `Trace.Carries`: this for results, computations and traces. There is a
  rule for every way to combine them.
* `Engine.Draws`: the records of a computed collection carry over to a trace. `Engine.Draws.mapM` goes
  through records on the one side and follows a trace on the other.
-/

namespace HybridQuery

variable {env' env : Environment} {α α' β β' γ γ' : Type}

/-! ## Results -/

/-- A success of the first result carries over to the second. -/
def Carries {ε ε' : Type} (R : α' → α → Prop) (d' : Except ε' α') (d : Except ε α) : Prop :=
  ∀ a', d' = .ok a' → ∃ a, d = .ok a ∧ R a' a

namespace Carries

variable {ε ε' : Type} {R : α' → α → Prop} {Q : β' → β → Prop} {d' : Except ε' α'} {d : Except ε α}

theorem ok {a' : α'} {a : α} (h : R a' a) : Carries R (.ok a' : Except ε' α') (.ok a : Except ε α) := by
  rintro _ ⟨⟩
  exact ⟨a, rfl, h⟩

theorem error (e : ε') : Carries R (.error e) d := fun _ h => nomatch h

theorem bind {f' : α' → Except ε' β'} {f : α → Except ε β} (h : Carries R d' d)
    (hf : ∀ a' a, R a' a → Carries Q (f' a') (f a)) : Carries Q (d' >>= f') (d >>= f) := by
  cases d' with
  | error e => exact .error e
  | ok a' =>
    obtain ⟨a, rfl, hr⟩ := h a' rfl
    exact hf a' a hr

theorem map {f' : α' → β'} {f : α → β} (h : Carries R d' d)
    (hf : ∀ a' a, R a' a → Q (f' a') (f a)) : Carries Q (f' <$> d') (f <$> d) :=
  h.bind fun a' a hr => .ok (hf a' a hr)

theorem of_map {g : α' → β'} {f : α → β} (h : Carries Q (g <$> d') (f <$> d)) :
    Carries (fun a' a => Q (g a') (f a)) d' d := by
  rintro a' rfl
  obtain ⟨b, hb, hq⟩ := h (g a') rfl
  cases d with
  | error e => cases hb
  | ok a => cases hb; exact ⟨a, rfl, hq⟩

theorem mapError {δ δ' : Type} (h : Carries R d' d) (g' : ε' → δ') (g : ε → δ) :
    Carries R (d'.mapError g') (d.mapError g) := by
  cases d' with
  | error e => exact .error _
  | ok a' =>
    obtain ⟨a, rfl, hr⟩ := h a' rfl
    exact .ok hr

theorem mono {R' : α' → α → Prop} (h : Carries R d' d) (hr : ∀ a' a, R a' a → R' a' a) :
    Carries R' d' d := fun a' ha => (h a' ha).imp fun a ⟨hd, h⟩ => ⟨hd, hr a' a h⟩

theorem of_eq {d : Except ε α} : Carries (· = ·) d d := fun a h => ⟨a, h, rfl⟩

theorem listMapM {f' : α' → Except ε' β'} {f : α → Except ε β} {l' : List α'} {l : List α}
    (hl : List.Forall₂ R l' l) (hf : ∀ a' a, R a' a → Carries Q (f' a') (f a)) :
    Carries (List.Forall₂ Q) (l'.mapM f') (l.mapM f) := by
  induction hl with
  | nil => exact .ok .nil
  | cons ha _ ih =>
    rw [List.mapM_cons, List.mapM_cons]
    refine (hf _ _ ha).bind fun b' b hb => ih.bind fun bs' bs hbs => ?_
    exact .ok (.cons hb hbs)

end Carries

/-! ## Computations -/

/-- A success of the first computation carries over to the second, whatever was recorded before. -/
def Engine.Carries (env' env : Environment) (R : α' → α → Prop) (x' : Engine α') (x : Engine α) :
    Prop :=
  ∀ r, x'.Meets env' (fun a' => ∃ a s, x env r = .ok a s ∧ R a' a) fun _ => True

/-- A computation that never succeeds. -/
abbrev Engine.Never (env : Environment) (x : Engine α) : Prop :=
  x.Meets env (fun _ => False) fun _ => True

namespace Engine

theorem Never.fail {fault : Fault} : Never (α := α) env (Run.fail fault) := Meets.fail trivial

theorem Never.bind {x : Engine α} (h : Never env x) (f : α → Engine β) : Never env (x >>= f) :=
  Meets.bind_of h fun _ h => h.elim

theorem Never.locate {x : Engine α} (h : Never env x) (position : SourcePosition) :
    Never env (Run.locate x position) := Meets.locate h position fun _ h => h

namespace Carries

variable {R : α' → α → Prop} {Q : β' → β → Prop} {x' : Engine α'} {x : Engine α}

theorem of_never (h : Never env' x') : Engine.Carries env' env R x' x :=
  fun _ => h.mono fun _ h => h.elim

theorem pure {a' : α'} {a : α} (h : R a' a) : Engine.Carries env' env R (Pure.pure a') (Pure.pure a) :=
  fun r => .pure ⟨a, r, rfl, h⟩

/-- A computation beside one that does nothing. -/
theorem of_meets {P : α' → Prop} {a : α} (h : x'.Meets env' P fun _ => True)
    (hr : ∀ a', P a' → R a' a) : Engine.Carries env' env R x' (Pure.pure a) :=
  fun r => h.mono fun a' ha => ⟨a, r, rfl, hr a' ha⟩

theorem bind {f' : α' → Engine β'} {f : α → Engine β} (h : Engine.Carries env' env R x' x)
    (hf : ∀ a' a, R a' a → Engine.Carries env' env Q (f' a') (f a)) :
    Engine.Carries env' env Q (x' >>= f') (x >>= f) := by
  refine fun r => (h r).bind_of ?_
  rintro a' ⟨a, s, hx, hr⟩
  refine (hf a' a hr s).mono ?_
  rintro b' ⟨b, t, hb, hq⟩
  refine ⟨b, t, ?_, hq⟩
  simp only [Bind.bind, ReaderT.bind, EStateM.bind, hx]
  exact hb

/-- What the first computation does after has no counterpart. -/
theorem then_left {Q : β' → α → Prop} {g : α' → Engine β'} (h : Engine.Carries env' env R x' x)
    (hf : ∀ a' a, R a' a → (g a').Meets env' (fun b' => Q b' a) fun _ => True) :
    Engine.Carries env' env Q (x' >>= g) x := by
  refine fun r => (h r).bind_of ?_
  rintro a' ⟨a, s, hx, hr⟩
  exact (hf a' a hr).mono fun b' hq => ⟨a, s, hx, hq⟩

/-- What the second computation does after has no counterpart, and it succeeds. -/
theorem bind_right {Q : α' → β → Prop} {f : α → Engine β} (h : Engine.Carries env' env R x' x)
    (hf : ∀ a' a, R a' a → ∀ r, ∃ b s, f a env r = .ok b s ∧ Q a' b) :
    Engine.Carries env' env Q x' (x >>= f) := by
  refine fun r => (h r).mono ?_
  rintro a' ⟨a, s, hx, hr⟩
  obtain ⟨b, t, hb, hq⟩ := hf a' a hr s
  refine ⟨b, t, ?_, hq⟩
  simp only [Bind.bind, ReaderT.bind, EStateM.bind, hx]
  exact hb

theorem map {f' : α' → β'} {f : α → β} (h : Engine.Carries env' env R x' x)
    (hf : ∀ a' a, R a' a → Q (f' a') (f a)) : Engine.Carries env' env Q (f' <$> x') (f <$> x) :=
  h.bind fun a' a hr => .pure (hf a' a hr)

theorem ofResult {d' : EngineResult α'} {d : EngineResult α} (h : HybridQuery.Carries R d' d) :
    Engine.Carries env' env R (Run.ofResult d') (Run.ofResult d) := by
  refine fun r => .ofResult (fun a' ha => ?_) fun _ _ => trivial
  obtain ⟨a, rfl, hr⟩ := h a' ha
  exact ⟨a, r, rfl, hr⟩

theorem locate (h : Engine.Carries env' env R x' x) (position' position : SourcePosition) :
    Engine.Carries env' env R (Run.locate x' position') (Run.locate x position) := by
  refine fun r => (Meets.locate (h r) position' fun _ h => h).mono ?_
  rintro a' ⟨a, s, hx, hr⟩
  exact ⟨a, s, by simp only [Run.locate, hx], hr⟩

theorem environment {R : Environment → Environment → Prop} (h : R env' env) :
    Engine.Carries env' env R Run.environment Run.environment :=
  fun r => .environment ⟨env, r, rfl, h⟩

/-- What only records something carries over to anything of its kind. -/
theorem count (change' change : Metrics → Metrics) :
    Engine.Carries env' env (fun _ _ => True) (Engine.count change') (Engine.count change) :=
  fun _ => .count ⟨(), _, rfl, trivial⟩

theorem log (event : Event) (fields' fields : List LogField) :
    Engine.Carries env' env (fun _ _ => True) (Engine.log event fields') (Engine.log event fields) :=
  fun _ => .log ⟨(), _, rfl, trivial⟩

theorem consult (path : String) :
    Engine.Carries env' env (fun _ _ => True) (Engine.consult path) (Engine.consult path) :=
  fun _ => .consult ⟨(), _, rfl, trivial⟩

theorem given {d' : Environment → Except Failure α'} {d : Environment → Except Failure α}
    (h : HybridQuery.Carries R (d' env') (d env)) :
    Engine.Carries env' env R (Engine.given d') (Engine.given d) := by
  refine fun r => .given (fun a' ha => ?_) fun _ _ => trivial
  obtain ⟨a, hd, hr⟩ := h a' ha
  exact ⟨a, r, by simp only [Engine.given, hd], hr⟩

theorem result (h : Engine.Carries env' env R x' x) :
    HybridQuery.Carries R (x'.result env') (x.result env) := by
  intro a' ha
  obtain ⟨a, s, hx, hr⟩ := (h .empty).of_result ha
  exact ⟨a, by simp only [Engine.result, hx], hr⟩

theorem listMapM {f' : α' → Engine β'} {f : α → Engine β} {l' : List α'} {l : List α}
    (hl : List.Forall₂ R l' l) (hf : ∀ a' a, R a' a → Engine.Carries env' env Q (f' a') (f a)) :
    Engine.Carries env' env (List.Forall₂ Q) (l'.mapM f') (l.mapM f) := by
  induction hl with
  | nil => exact .pure .nil
  | cons ha _ ih =>
    rw [List.mapM_cons, List.mapM_cons]
    refine (hf _ _ ha).bind fun b' b hb => ih.bind fun bs' bs hbs => ?_
    exact .pure (.cons hb hbs)

end Carries
end Engine
end HybridQuery
