import Mathlib.Data.List.Forall2
import HybridQuery.Proofs.Meaning.Success

/-!
# Contracts of computations

* `Engine.Meets`: whatever was recorded before, a computation gives a value of one predicate or fails
  with a failure of another. There is a rule for every way to combine computations.
* `Engine.Meets.listMapM`, `Engine.Meets.collectionMapM`, `Engine.Meets.flatMapM`: rules for going
  through lists and collections.
-/

namespace HybridQuery

variable {env : Environment} {α β γ : Type}

/-- Whatever was recorded before, a computation gives a value of `P` or fails with a failure of `E`. -/
def Engine.Meets (env : Environment) (P : α → Prop) (E : Failure → Prop) (x : Engine α) : Prop :=
  ∀ r, match x env r with
    | .ok a _ => P a
    | .error f _ => E f

namespace Engine.Meets

variable {P Q : α → Prop} {E : Failure → Prop} {x : Engine α}

theorem mono (h : Meets env P E x) (hq : ∀ a, P a → Q a) : Meets env Q E x := by
  intro r
  have := h r
  cases hx : x env r with
  | ok a s => rw [hx] at this; exact hq a this
  | error f s => rw [hx] at this; exact this

theorem weaken {E' : Failure → Prop} (h : Meets env P E x) (he : ∀ f, E f → E' f) :
    Meets env P E' x := by
  intro r
  have := h r
  cases hx : x env r with
  | ok a s => rw [hx] at this; exact this
  | error f s => rw [hx] at this; exact he f this

theorem trivial : Meets env (fun _ => True) (fun _ => True) x := by
  intro r
  cases x env r <;> exact True.intro

theorem pure {a : α} (h : P a) : Meets env P E (Pure.pure a) := fun _ => h

theorem bind {f : α → Engine β} {Q : β → Prop}
    (h : Meets env (fun a => Meets env Q E (f a)) E x) : Meets env Q E (x >>= f) := by
  intro r
  have := h r
  simp only [Bind.bind, ReaderT.bind, EStateM.bind]
  split at this
  · next heq => rw [heq]; exact this _
  · next heq => rw [heq]; exact this

theorem bind_of {f : α → Engine β} {Q : β → Prop} (h : Meets env P E x)
    (hf : ∀ a, P a → Meets env Q E (f a)) : Meets env Q E (x >>= f) := .bind (h.mono hf)

theorem map {f : α → β} {Q : β → Prop} (h : Meets env (fun a => Q (f a)) E x) :
    Meets env Q E (f <$> x) := .bind (h.mono fun _ ha => .pure ha)

theorem raise {e : EngineError} (h : E (.raised e)) : Meets env P E (Run.raise e) := fun _ => h

theorem fail {fault : Fault} (h : E (.raised (.of fault))) : Meets env P E (Run.fail fault) :=
  fun _ => h

theorem exhausted (h : E .exhausted) : Meets env P E Run.exhausted := fun _ => h

theorem ofResult {d : EngineResult α} (hok : ∀ a, d = .ok a → P a)
    (he : ∀ e, d = .error e → E (.raised e)) : Meets env P E (Run.ofResult d) := by
  cases d with
  | ok a => exact .pure (hok a rfl)
  | error e => exact .raise (he e rfl)

theorem locate (h : Meets env P E x) (position : SourcePosition)
    (he : ∀ f, E f → E (f.locate position)) : Meets env P E (Run.locate x position) := by
  intro r
  have := h r
  simp only [Run.locate]
  split at this
  · next heq => rw [heq]; exact this
  · next heq => rw [heq]; exact he _ this

theorem environment {P : Environment → Prop} (h : P env) : Meets env P E Run.environment := fun _ => h

theorem count {P : Unit → Prop} {change : Metrics → Metrics} (h : P ()) :
    Meets env P E (Engine.count change) := fun _ => h

theorem logRecord {P : Unit → Prop} {record : LogRecord} (h : P ()) :
    Meets env P E (Engine.logRecord record) := fun _ => h

theorem log {P : Unit → Prop} {event : Event} {fields : List LogField} (h : P ()) :
    Meets env P E (Engine.log event fields) := fun _ => h

theorem consult {P : Unit → Prop} {path : String} (h : P ()) :
    Meets env P E (Engine.consult path) := fun _ => h

theorem given {d : Environment → Except Failure α} (hok : ∀ a, d env = .ok a → P a)
    (he : ∀ f, d env = .error f → E f) : Meets env P E (Engine.given d) := by
  intro r
  simp only [Engine.given]
  cases hd : d env with
  | ok a => exact hok a hd
  | error f => exact he f hd

/-- The result on an empty record is one of those that the contract admits. -/
theorem of_result (h : Meets env P E x) {a : α} (ha : x.result env = .ok a) : P a := by
  have := h .empty
  simp only [Engine.result] at ha
  cases hx : x env .empty with
  | ok b s => rw [hx] at this ha; cases ha; exact this
  | error f s => rw [hx] at ha; cases ha

/-! ### Lists and collections -/

section
variable {Q : β → Prop}

theorem listMapM {f : α → Engine β} {l : List α} (hf : ∀ a ∈ l, Meets env Q E (f a)) :
    Meets env (fun bs => ∀ b ∈ bs, Q b) E (l.mapM f) := by
  induction l with
  | nil => exact .pure (List.forall_mem_nil _)
  | cons a l ih =>
    obtain ⟨ha, hl⟩ := List.forall_mem_cons.mp hf
    rw [List.mapM_cons]
    exact .bind_of ha fun b hb => .bind_of (ih hl) fun bs hbs =>
      .pure (List.forall_mem_cons.mpr ⟨hb, hbs⟩)

theorem collectionMapM {f : α → Engine β} {c : Collection α}
    (hf : ∀ a ∈ c.records, Meets env Q E (f a)) :
    Meets env (fun d => ∀ b ∈ d.records, Q b) E (c.mapM f) := by
  have hpartitions : Meets env (fun ps : List (List β) => ∀ p ∈ ps, ∀ b ∈ p, Q b) E
      (c.partitions.mapM fun partition => partition.mapM f) :=
    .listMapM fun p hp => .listMapM fun a ha => hf a (List.mem_flatten.mpr ⟨p, hp, ha⟩)
  exact .bind_of hpartitions fun ps h => .pure (List.forall_mem_flatten.mpr h)

theorem flatMapM {f : α → Engine (List β)} {c : Collection α}
    (hf : ∀ a ∈ c.records, Meets env (fun bs => ∀ b ∈ bs, Q b) E (f a)) :
    Meets env (fun d => ∀ b ∈ d.records, Q b) E (c.flatMapM f) := by
  have hpartitions : Meets env (fun ps : List (List β) => ∀ p ∈ ps, ∀ b ∈ p, Q b) E
      (c.partitions.mapM fun partition => do return (← partition.mapM f).flatten) :=
    .listMapM fun p hp => .bind_of (.listMapM fun a ha => hf a (List.mem_flatten.mpr ⟨p, hp, ha⟩))
      fun bss h => .pure (List.forall_mem_flatten.mpr h)
  exact .bind_of hpartitions fun ps h => .pure (List.forall_mem_flatten.mpr h)

theorem filterM {f : α → Engine Bool} {c : Collection α}
    (hf : ∀ a ∈ c.records, Meets env (fun _ => True) E (f a)) :
    Meets env (fun d => ∀ a ∈ d.records, a ∈ c.records) E (c.filterM f) :=
  .flatMapM fun a ha => .bind_of (hf a ha) fun kept _ => by
    cases kept
    · exact .pure (List.forall_mem_nil _)
    · exact .pure (List.forall_mem_singleton.mpr ha)

end

end Engine.Meets

/-! ## Collections -/

namespace Collection

/-- A transform of every record is one of the list of all records. -/
theorem records_flatMapM {m : Type → Type} [Monad m] [LawfulMonad m] (f : α → m (List β))
    (c : Collection α) :
    records <$> c.flatMapM f = List.flatten <$> c.records.mapM f := by
  have hmap (ps : List (List α)) :
      (ps.mapM fun p => List.flatten <$> p.mapM f) =
        List.map List.flatten <$> ps.mapM fun p : List α => p.mapM f := by
    induction ps with
    | nil => simp
    | cons p ps ih => simp [ih]
  rw [records, mapM_flatten, flatMapM]
  simp only [bind_pure_comp, hmap, Functor.map_map, records, List.flatten_flatten]

theorem records_mapM {m : Type → Type} [Monad m] [LawfulMonad m] (f : α → m β) (c : Collection α) :
    records <$> c.mapM f = c.records.mapM f := by
  rw [records, mapM_flatten, mapM]
  simp only [bind_pure_comp, Functor.map_map, records]

end Collection
end HybridQuery
