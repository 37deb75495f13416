import HybridQuery.Proofs.Recutting.Values

/-!
# Two runs that end alike

Two computations agree if, in environments that differ at most in the number of partitions and from
related states, they end in related values and states or in the same failure.

* `Run.Agree`: the judgement. `Engine.Agree` and `Step.Agree` are the cases of a run's record, about
  which nothing is said, and of a state beside it. There is one rule for every way to combine
  computations.
-/

namespace HybridQuery

variable {α β : Type} {R : α → α → Prop} {Q : β → β → Prop}

/-! ## Computations -/

/-- Environments that give the same answers, except to how many partitions a source has. -/
structure Environment.Recut (env env' : Environment) : Prop where
  cap : env.materializationCap = env'.materializationCap
  catalogue : env.catalogue = env'.catalogue
  files : env.files = env'.files
  functions : List.Forall₂ FunctionOf.Recut env.functions env'.functions

variable {σ τ υ : Type} {S : σ → σ → Prop} {T : τ → τ → Prop} {U : υ → υ → Prop}

/-- Related values with related states, or the same failure. -/
inductive EndAlike (S : σ → σ → Prop) (R : α → α → Prop) :
    EStateM.Result Failure σ α → EStateM.Result Failure σ α → Prop
  | ok {a b : α} {s t : σ} (h : R a b) (hs : S s t) : EndAlike S R (.ok a s) (.ok b t)
  | error (f : Failure) (s t : σ) : EndAlike S R (.error f s) (.error f t)

/-- Computations that end alike from related states, with related states if they succeed. -/
def Run.Agree (S : σ → σ → Prop) (R : α → α → Prop) (x y : Run σ α) : Prop :=
  ∀ env env', env.Recut env' → ∀ s t, S s t → EndAlike S R (x env s) (y env' t)

/-- Computations of the engine that end alike, whatever was recorded before. -/
abbrev Engine.Agree (R : α → α → Prop) (x y : Engine α) : Prop := Run.Agree (fun _ _ => True) R x y

/-- Steps that end alike from related states. -/
abbrev Step.Agree (T : τ → τ → Prop) (R : α → α → Prop) (x y : Step τ α) : Prop :=
  Run.Agree (fun s t => T s.1 t.1) R x y

namespace Run.Agree

variable {x y : Run σ α}

theorem pure {a b : α} (h : R a b) : Run.Agree S R (Pure.pure a) (Pure.pure b) :=
  fun _ _ _ _ _ hs => .ok h hs

theorem raise (e : EngineError) : Run.Agree S R (Run.raise e) (Run.raise e) :=
  fun _ _ _ _ _ _ => .error _ _ _

theorem fail (fault : Fault) : Run.Agree S R (Run.fail fault) (Run.fail fault) := .raise _

theorem exhausted : Run.Agree S R Run.exhausted Run.exhausted := fun _ _ _ _ _ _ => .error _ _ _

theorem ofResult {d e : EngineResult α} (h : HybridQuery.Agree R d e) :
    Run.Agree S R (Run.ofResult d) (Run.ofResult e) := by
  cases h with
  | ok h => exact .pure h
  | error e => exact .raise e

theorem bind {f g : α → Run σ β} (hx : Run.Agree S R x y)
    (hf : ∀ a b, R a b → Run.Agree S Q (f a) (g b)) : Run.Agree S Q (x >>= f) (y >>= g) := by
  intro env env' he s t hs
  change EndAlike S Q (EStateM.bind _ _ s) (EStateM.bind _ _ t)
  unfold EStateM.bind
  have hx := hx env env' he s t hs
  generalize x env s = d, y env' t = e at hx
  cases hx with
  | ok h hs => exact hf _ _ h env env' he _ _ hs
  | error f s t => exact .error f s t

theorem map {f g : α → β} (hx : Run.Agree S R x y) (hf : ∀ a b, R a b → Q (f a) (g b)) :
    Run.Agree S Q (f <$> x) (g <$> y) := by
  rw [map_eq_pure_bind, map_eq_pure_bind]
  exact hx.bind fun a b h => .pure (hf a b h)

theorem of_map {f g : α → β} (hx : Run.Agree S Q (f <$> x) (g <$> y)) :
    Run.Agree S (fun a b => Q (f a) (g b)) x y := by
  intro env env' he s t hs
  have hx := hx env env' he s t hs
  change EndAlike S Q (EStateM.map f _ s) (EStateM.map g _ t) at hx
  unfold EStateM.map at hx
  generalize x env s = d, y env' t = e at hx
  cases d <;> cases e <;> cases hx
  · exact .ok ‹_› ‹_›
  · exact .error _ _ _

theorem environment : Run.Agree S Environment.Recut Run.environment Run.environment :=
  fun _ _ he _ _ hs => .ok he hs

theorem locate (hx : Run.Agree S R x y) (position : SourcePosition) :
    Run.Agree S R (x.locate position) (y.locate position) := by
  intro env env' he s t hs
  have hx := hx env env' he s t hs
  unfold Run.locate
  generalize x env s = d, y env' t = e at hx
  cases hx with
  | ok h hs => exact .ok h hs
  | error f s t => exact .error _ s t

theorem onFailure (hx : Run.Agree S R x y) (cleanUp : Run σ Unit) :
    Run.Agree S R (x.onFailure cleanUp) (y.onFailure cleanUp) := by
  intro env env' he s t hs
  have hx := hx env env' he s t hs
  unfold Run.onFailure
  generalize x env s = d, y env' t = e at hx
  cases hx with
  | ok h hs => exact .ok h hs
  | error f s t =>
    dsimp only
    cases cleanUp env s <;> cases cleanUp env' t <;> exact .error f _ _

/-! ### Steps -/

theorem read : Step.Agree T T Step.read Step.read := fun _ _ _ _ _ ht => .ok ht ht

theorem write {t t' : τ} (h : T t t') : Step.Agree T (· = ·) (Step.write t) (Step.write t') :=
  fun _ _ _ _ _ _ => .ok rfl h

theorem lift {x y : Engine α} (hx : Engine.Agree R x y) :
    Step.Agree T R (Step.lift x) (Step.lift y) := by
  rintro env env' he ⟨t, r⟩ ⟨t', r'⟩ ht
  have hx := hx env env' he r r' trivial
  simp only [Step.lift]
  generalize x env r = d, y env' r' = e at hx
  cases hx with
  | ok h _ => exact .ok h ht
  | error f s t => exact .error f _ _

/-- A step on a part of the state. -/
theorem part {x y : Step υ α} (hx : Step.Agree U R x y) {u u' : υ} (hu : U u u') {whole whole' : υ → τ}
    (hw : ∀ u u', U u u' → T (whole u) (whole' u')) :
    Step.Agree T (fun a b => R a.1 b.1 ∧ U a.2 b.2) (Step.part whole u x) (Step.part whole' u' y) := by
  rintro env env' he ⟨t, r⟩ ⟨t', r'⟩ _
  have hx := hx env env' he (u, r) (u', r') hu
  simp only [Step.part]
  generalize x env (u, r) = d, y env' (u', r') = e at hx
  cases hx with
  | ok h hu => exact .ok ⟨h, hu⟩ (hw _ _ hu)
  | error f s t => exact .error f _ _

/-- A step on a part of the state whose value is handed on. -/
theorem whole {x y : Step υ α} (hx : Step.Agree U R x y) {u u' : υ} (hu : U u u') {whole whole' : υ → τ}
    (hw : ∀ u u', U u u' → T (whole u) (whole' u')) :
    Step.Agree T R (do
      let (a, _) ← Step.part whole u x
      return a) (do
      let (a, _) ← Step.part whole' u' y
      return a) := .bind (.part hx hu hw) fun _ _ h => .pure h.1

theorem eval {x y : Step τ α} (hx : Step.Agree T R x y) {t t' : τ} (ht : T t t') :
    Engine.Agree R (Step.eval t x) (Step.eval t' y) := by
  intro env env' he r r' _
  have hx := hx env env' he (t, r) (t', r') ht
  unfold Step.eval
  generalize x env (t, r) = d, y env' (t', r') = e at hx
  cases hx with
  | ok h _ => exact .ok h trivial
  | error f s t => exact .error f _ _

/-! ### The engine -/

/-- What is counted does not matter. -/
theorem count (change change' : Metrics → Metrics) :
    Engine.Agree (· = ·) (Engine.count change) (Engine.count change') :=
  fun _ _ _ _ _ _ => .ok rfl trivial

/-- What is logged does not matter. -/
theorem logRecord (record record' : LogRecord) :
    Engine.Agree (· = ·) (Engine.logRecord record) (Engine.logRecord record') :=
  fun _ _ _ _ _ _ => .ok rfl trivial

theorem log (event : Event) (fields fields' : List LogField) :
    Engine.Agree (· = ·) (Engine.log event fields) (Engine.log event fields') := .logRecord _ _

theorem consult (path : String) : Engine.Agree (· = ·) (Engine.consult path) (Engine.consult path) :=
  fun _ _ _ _ _ _ => .ok rfl trivial

/-! ### Lists and collections -/

theorem listMapM {f g : α → Run σ β} {l k : List α} (hl : List.Forall₂ R l k)
    (hf : ∀ a b, R a b → Run.Agree S Q (f a) (g b)) :
    Run.Agree S (List.Forall₂ Q) (l.mapM f) (k.mapM g) := by
  induction hl with
  | nil => exact .pure .nil
  | cons ha _ ih =>
    rw [List.mapM_cons, List.mapM_cons]
    exact (hf _ _ ha).bind fun _ _ hb => ih.bind fun _ _ hbs => .pure (.cons hb hbs)

theorem mapM {f g : α → Run σ β} {c d : Collection α} (hc : c.RecutBy R d)
    (hf : ∀ a b, R a b → Run.Agree S Q (f a) (g b)) :
    Run.Agree S (Collection.RecutBy Q) (c.mapM f) (d.mapM g) := by
  refine of_map (f := Collection.records) (g := Collection.records) (Q := List.Forall₂ Q) ?_
  rw [Collection.records_mapM, Collection.records_mapM]
  exact .listMapM hc hf

theorem flatMapM {f g : α → Run σ (List β)} {c d : Collection α} (hc : c.RecutBy R d)
    (hf : ∀ a b, R a b → Run.Agree S (List.Forall₂ Q) (f a) (g b)) :
    Run.Agree S (Collection.RecutBy Q) (c.flatMapM f) (d.flatMapM g) := by
  refine of_map (f := Collection.records) (g := Collection.records) (Q := List.Forall₂ Q) ?_
  rw [Collection.records_flatMapM, Collection.records_flatMapM]
  exact .map (.listMapM hc hf) fun _ _ h => List.rel_flatten h

theorem filterM {f g : α → Run σ Bool} {c d : Collection α} (hc : c.RecutBy R d)
    (hf : ∀ a b, R a b → Run.Agree S (· = ·) (f a) (g b)) :
    Run.Agree S (Collection.RecutBy R) (c.filterM f) (d.filterM g) :=
  .flatMapM hc fun a b h => .bind (hf a b h) fun kept _ hkept => by
    cases hkept
    cases kept
    · exact .pure .nil
    · exact .pure (.cons h .nil)

end Run.Agree

end HybridQuery
