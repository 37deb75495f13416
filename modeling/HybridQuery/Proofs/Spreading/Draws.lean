import HybridQuery.Proofs.Spreading.Carries

/-!
# Traces and collections that carry over

A trace carries over to one that goes at least as far. A collection carries over to a trace that gives
related results, and to a collection of related records, however both are partitioned.

* `Trace.Carries`: the first trace fails, or both go on alike. `Trace.Gives` is the case of a trace
  that cannot fail.
* `Engine.Draws`: the records of a computed collection carry over to a trace.
  `Engine.Draws.flatMapM` goes through the records on the one side and follows the trace on the other.
-/

namespace HybridQuery

variable {env' env : Environment} {α α' β β' : Type}

/-! ## Traces -/

/-- The first trace goes on as the second one does with related results, or it fails before. -/
inductive Trace.Carries (R : α' → α → Prop) : Trace α' → Trace α → Prop
  | done : Trace.Carries R .done .done
  | failed (f : Failure) (t : Trace α) : Trace.Carries R (.failed f) t
  | item {a' : α'} {a : α} {t' : Trace α'} {t : Trace α} (head : R a' a)
      (rest : Trace.Carries R t' t) : Trace.Carries R (.item a' t') (.item a t)

/-- A trace gives results related to those of a list, and nothing else. -/
def Trace.Gives (R : α' → α → Prop) (l' : List α') (t : Trace α) : Prop :=
  ∃ l, t = .ofList l ∧ List.Forall₂ R l' l

namespace Trace

variable {R : α' → α → Prop} {Q : β' → β → Prop} {t' u' : Trace α'} {t u : Trace α} {l' : List α'}

namespace Gives

theorem done : Gives R [] (.done : Trace α) := ⟨[], rfl, .nil⟩

theorem one {a' : α'} {a : α} (h : R a' a) : Gives R [a'] (.one a) := ⟨[a], rfl, .cons h .nil⟩

theorem ofList {l : List α} (h : List.Forall₂ R l' l) : Gives R l' (.ofList l) := ⟨l, rfl, h⟩

theorem item {a' : α'} {a : α} (ha : R a' a) (h : Gives R l' t) : Gives R (a' :: l') (.item a t) := by
  obtain ⟨l, rfl, hl⟩ := h
  exact ⟨a :: l, rfl, .cons ha hl⟩

theorem append {k' : List α'} (h : Gives R l' t) (hu : Gives R k' u) :
    Gives R (l' ++ k') (t.append u) := by
  obtain ⟨l, rfl, hl⟩ := h
  induction hl with
  | nil => exact hu
  | cons ha _ ih => exact .item ha ih

/-- A single result for each place. -/
theorem bindFrom_one {g : Nat → α' → β'} {f : Nat → α → β} (h : Gives R l' t)
    (hf : ∀ place a' a, R a' a → Q (g place a') (f place a)) (place : Nat) :
    Gives Q ((l'.zipIdx place).map fun p => g p.2 p.1)
      (bindFrom (fun place a => .one (f place a)) place t) := by
  obtain ⟨l, rfl, hl⟩ := h
  induction hl generalizing place with
  | nil => exact .done
  | cons ha _ ih => exact .item (hf place _ _ ha) (ih (place + 1))

theorem ahead (h : Gives R l' t) : Gives R l' t.ahead := by
  obtain ⟨l, rfl, hl⟩ := h
  induction hl with
  | nil => exact .done
  | @cons a' a l' l ha _ ih =>
    cases l with
    | nil => exact .item ha ih
    | cons b l => exact .item ha ih

theorem locate (h : Gives R l' t) (position : SourcePosition) : Gives R l' (t.locate position) := by
  obtain ⟨l, rfl, hl⟩ := h
  induction hl with
  | nil => exact .done
  | cons ha _ ih => exact .item ha ih

theorem result (h : Gives R l' t) : ∃ l, t.result = .ok l ∧ List.Forall₂ R l' l := by
  obtain ⟨l, rfl, hl⟩ := h
  exact ⟨l, result_ofList l, hl⟩

theorem first (h : Gives R l' t) : ∃ l, t.first = .ok l ∧ List.Forall₂ R (l'.take 1) l := by
  obtain ⟨l, rfl, hl⟩ := h
  cases hl with
  | nil => exact ⟨[], rfl, .nil⟩
  | cons ha _ => exact ⟨[_], rfl, .cons ha .nil⟩

theorem isEmpty (h : Gives R l' t) : t.isEmpty = .ok l'.isEmpty := by
  obtain ⟨l, rfl, hl⟩ := h
  cases hl <;> rfl

end Gives

namespace Carries

theorem of_gives (h : Gives R l' t) : Carries R (.ofList l') t := by
  obtain ⟨l, rfl, hl⟩ := h
  induction hl with
  | nil => exact .done
  | cons ha _ ih => exact .item ha ih

theorem one {a' : α'} {a : α} (h : R a' a) : Carries R (.one a') (.one a) := .item h .done

theorem ofList {l' : List α'} {l : List α} (h : List.Forall₂ R l' l) :
    Carries R (.ofList l') (.ofList l) := of_gives (.ofList h)

theorem attempt {d' : Except Failure β'} {d : Except Failure β} {f' : β' → Trace α'}
    {f : β → Trace α} (h : HybridQuery.Carries Q d' d)
    (hf : ∀ b' b, Q b' b → Carries R (f' b') (f b)) :
    Carries R (.attempt d' f') (.attempt d f) := by
  cases d' with
  | error e => exact .failed e _
  | ok b' =>
    obtain ⟨b, rfl, hb⟩ := h b' rfl
    exact hf b' b hb

theorem append (h : Carries R t' t) (hu : Carries R u' u) :
    Carries R (t'.append u') (t.append u) := by
  induction h with
  | done => exact hu
  | failed f t => exact .failed f _
  | item head _ ih => exact .item head ih

theorem bindFrom {f' : Nat → α' → Trace β'} {f : Nat → α → Trace β} (h : Carries R t' t)
    (hf : ∀ place a' a, R a' a → Carries Q (f' place a') (f place a)) (place : Nat) :
    Carries Q (bindFrom f' place t') (bindFrom f place t) := by
  induction h generalizing place with
  | done => exact .done
  | failed f t => exact .failed f _
  | item head _ ih => exact (hf place _ _ head).append (ih (place + 1))

theorem bind {f' : α' → Trace β'} {f : α → Trace β} (h : Carries R t' t)
    (hf : ∀ a' a, R a' a → Carries Q (f' a') (f a)) : Carries Q (t'.bind f') (t.bind f) :=
  h.bindFrom (fun _ => hf) 0

theorem ahead (h : Carries R t' t) : Carries R t'.ahead t.ahead := by
  induction h with
  | done => exact .done
  | failed f t => exact .failed f _
  | item head rest ih =>
    cases rest with
    | done => exact .item head .done
    | failed f t => exact .failed f _
    | item => exact .item head ih

theorem result (h : Carries R t' t) :
    HybridQuery.Carries (List.Forall₂ R) t'.result t.result := by
  induction h with
  | done => exact .ok .nil
  | failed f t => exact .error f
  | item head _ ih => exact ih.map fun _ _ h => .cons head h

/-- What a trace gives, one that it carries over to gives as well. -/
theorem gives (h : Carries R t' t) {l' : List α'} (hl : t'.result = .ok l') : t.Gives R l' := by
  rw [eq_ofList_of_result hl] at h
  clear hl
  induction l' generalizing t with
  | nil => cases h; exact .done
  | cons a' l' ih =>
    cases h with
    | item head rest => exact .item head (ih rest)

theorem first (h : Carries R t' t) : HybridQuery.Carries (List.Forall₂ R) t'.first t.first := by
  cases h with
  | done => exact .ok .nil
  | failed f t => exact .error f
  | item head _ => exact .ok (.cons head .nil)

theorem isEmpty (h : Carries R t' t) : HybridQuery.Carries (· = ·) t'.isEmpty t.isEmpty := by
  cases h with
  | done => exact .ok rfl
  | failed f t => exact .error f
  | item head _ => exact .ok rfl

end Carries
end Trace

theorem Engine.Carries.trace {R : α' → α → Prop} {x' : Engine (List α')} {x : Engine (List α)}
    (h : Engine.Carries env' env (List.Forall₂ R) x' x) :
    Trace.Carries R (x'.trace env') (x.trace env) :=
  .attempt h.result fun _ _ => .ofList

/-- What a computation gives, the trace of one that it carries over to gives as well. -/
theorem Engine.Carries.gives {R : α' → α → Prop} {x' : Engine (List α')} {x : Engine (List α)}
    (h : Engine.Carries env' env (List.Forall₂ R) x' x) :
    x'.Meets env' (fun l' => (x.trace env).Gives R l') fun _ => True := by
  refine (h .empty).mono ?_
  rintro l' ⟨l, s, hx, hl⟩
  refine ⟨l, ?_, hl⟩
  simp only [Engine.trace, Trace.ofResult, Engine.result, hx, Trace.attempt_ok]

/-! ## Collections -/

/-- Collections of related records, whatever their partitions. -/
def Collection.Like (R : α' → α → Prop) (c' : Collection α') (c : Collection α) : Prop :=
  List.Forall₂ R c'.records c.records

namespace Carries

variable {ε : Type} {R : α' → α → Prop} {Q : β' → β → Prop} {c' : Collection α'} {c : Collection α}

theorem mapM_collection {f' : α' → Except ε β'} {f : α → Except ε β} (hc : c'.Like R c)
    (hf : ∀ a' a, R a' a → Carries Q (f' a') (f a)) :
    Carries (Collection.Like Q) (c'.mapM f') (c.mapM f) := by
  refine of_map (g := Collection.records) (f := Collection.records) ?_
  rw [Collection.records_mapM, Collection.records_mapM]
  exact listMapM hc hf

theorem flatMapM_collection {f' : α' → Except ε (List β')} {f : α → Except ε (List β)}
    (hc : c'.Like R c) (hf : ∀ a' a, R a' a → Carries (List.Forall₂ Q) (f' a') (f a)) :
    Carries (Collection.Like Q) (c'.flatMapM f') (c.flatMapM f) := by
  refine of_map (g := Collection.records) (f := Collection.records) ?_
  rw [Collection.records_flatMapM, Collection.records_flatMapM]
  exact (listMapM hc hf).map fun _ _ h => List.rel_flatten h

/-- A transform of every record of a collection, and of a list of related items. -/
theorem mapM_records {f' : α' → Except ε β'} {f : α → Except ε β} {l : List α}
    (hc : List.Forall₂ R c'.records l) (hf : ∀ a' a, R a' a → Carries Q (f' a') (f a)) :
    Carries (fun d' l => List.Forall₂ Q d'.records l) (c'.mapM f') (l.mapM f) := by
  refine of_map (g := Collection.records) (f := id) ?_
  rw [Collection.records_mapM, id_map]
  exact listMapM hc hf

end Carries

/-- The records of a computed collection carry over to a trace. -/
def Engine.Draws (env' : Environment) (R : α' → α → Prop) (x' : Engine (Collection α')) (t : Trace α) :
    Prop :=
  x'.Meets env' (fun c' => t.Gives R c'.records) fun _ => True

namespace Engine

theorem Meets.of_map {P : β → Prop} {E : Failure → Prop} {x : Engine α} {f : α → β}
    (h : (f <$> x).Meets env P E) : x.Meets env (fun a => P (f a)) E := by
  intro r
  have := h r
  simp only [Functor.map, EStateM.map] at this
  cases hx : x env r with
  | ok a s => rw [hx] at this; exact this
  | error e s => rw [hx] at this; exact this

theorem Carries.of_map {R : β' → β → Prop} {x' : Engine α'} {x : Engine α} {g : α' → β'} {f : α → β}
    (h : Engine.Carries env' env R (g <$> x') (f <$> x)) :
    Engine.Carries env' env (fun a' a => R (g a') (f a)) x' x := by
  refine fun r => (h r).of_map.mono ?_
  rintro a' ⟨b, s, hb, hr⟩
  simp only [Functor.map, EStateM.map] at hb
  cases hx : x env r with
  | ok a t => rw [hx] at hb; cases hb; exact ⟨a, _, rfl, hr⟩
  | error e t => rw [hx] at hb; cases hb

variable {R : α' → α → Prop} {Q : β' → β → Prop}

theorem Carries.flatMapM {f' : α' → Engine (List β')} {f : α → Engine (List β)} {c' : Collection α'}
    {c : Collection α} (hc : c'.Like R c)
    (hf : ∀ a' a, R a' a → Engine.Carries env' env (List.Forall₂ Q) (f' a') (f a)) :
    Engine.Carries env' env (Collection.Like Q) (c'.flatMapM f') (c.flatMapM f) := by
  refine of_map (g := Collection.records) (f := Collection.records) ?_
  rw [Collection.records_flatMapM, Collection.records_flatMapM]
  exact (Carries.listMapM hc hf).map fun _ _ h => List.rel_flatten h

theorem Carries.mapM {f' : α' → Engine β'} {f : α → Engine β} {c' : Collection α'}
    {c : Collection α} (hc : c'.Like R c)
    (hf : ∀ a' a, R a' a → Engine.Carries env' env Q (f' a') (f a)) :
    Engine.Carries env' env (Collection.Like Q) (c'.mapM f') (c.mapM f) := by
  refine of_map (g := Collection.records) (f := Collection.records) ?_
  rw [Collection.records_mapM, Collection.records_mapM]
  exact Carries.listMapM hc hf

namespace Draws

variable {x' : Engine (Collection α')} {t : Trace α}

theorem of_never (h : Never env' x') : Draws env' R x' t := h.mono fun _ h => h.elim

theorem pure {c' : Collection α'} (h : t.Gives R c'.records) : Draws env' R (Pure.pure c') t :=
  Meets.pure h

theorem ahead (h : Draws env' R x' t) : Draws env' R x' t.ahead := h.mono fun _ h => h.ahead

theorem of_records
    (h : Meets env' (fun l' => t.Gives R l') (fun _ => True) (Collection.records <$> x')) :
    Draws env' R x' t :=
  Meets.of_map (P := fun l' => t.Gives R l') h

/-- What both sides compute before, if it carries over. -/
theorem attempt {y' : Engine β'} {y : Engine β} {f' : β' → Engine (Collection α')} {f : β → Trace α}
    (h : Engine.Carries env' env Q y' y) (hf : ∀ b' b, Q b' b → Draws env' R (f' b') (f b)) :
    Draws env' R (y' >>= f') (.attempt (y.result env) f) := by
  refine (h .empty).bind_of ?_
  rintro b' ⟨b, s, hy, hq⟩
  simp only [Engine.result, hy, Trace.attempt_ok]
  exact hf b' b hq

/-- Records are gone through with their places, and the trace is followed. -/
theorem flatMapM_zipWithIndex {f' : α' × Nat → Engine (List β')} {f : Nat → α → Trace β}
    {c' : Collection α'} (hc : t.Gives R c'.records)
    (hf : ∀ index a' a, R a' a →
      (f' (a', index)).Meets env' (fun bs' => (f (index + 1) a).Gives Q bs') fun _ => True) :
    Draws env' Q (c'.zipWithIndex.flatMapM f') (t.bindFrom f 1) := by
  obtain ⟨l, rfl, hl⟩ := hc
  refine of_records ?_
  rw [Collection.records_flatMapM, Collection.records_zipWithIndex]
  refine Meets.map ?_
  generalize c'.records = l', hstart : 0 = start at hl ⊢
  rw [show 1 = start + 1 by omega]
  clear hstart
  induction hl generalizing start with
  | nil => exact .pure .done
  | cons ha _ ih =>
    rw [List.zipIdx_cons, List.mapM_cons]
    refine .bind_of (hf start _ _ ha) fun bs' hbs => .bind_of (ih (start + 1)) fun bss' hbss => ?_
    exact .pure (hbs.append hbss)

/-- Records are gone through, and the trace is followed. -/
theorem flatMapM {f' : α' → Engine (List β')} {f : α → Trace β} {c' : Collection α'}
    (hc : t.Gives R c'.records)
    (hf : ∀ a' a, R a' a → (f' a').Meets env' (fun bs' => (f a).Gives Q bs') fun _ => True) :
    Draws env' Q (c'.flatMapM f') (t.bind f) := by
  obtain ⟨l, rfl, hl⟩ := hc
  refine of_records ?_
  rw [Collection.records_flatMapM]
  refine Meets.map ?_
  generalize c'.records = l' at hl ⊢
  induction hl with
  | nil => exact .pure .done
  | cons ha _ ih =>
    rw [List.mapM_cons]
    refine .bind_of (hf _ _ ha) fun bs' hbs => .bind_of ih fun bss' hbss => ?_
    rw [Trace.ofList, Trace.item_bind]
    exact .pure (hbs.append hbss)

theorem mapM {f' : α' → Engine β'} {f : α → Trace β} {c' : Collection α'}
    (hc : t.Gives R c'.records)
    (hf : ∀ a' a, R a' a → (f' a').Meets env' (fun b' => (f a).Gives Q [b']) fun _ => True) :
    Draws env' Q (c'.mapM f') (t.bind f) := by
  obtain ⟨l, rfl, hl⟩ := hc
  refine of_records ?_
  rw [Collection.records_mapM]
  generalize c'.records = l' at hl ⊢
  induction hl with
  | nil => exact .pure .done
  | cons ha _ ih =>
    rw [List.mapM_cons]
    refine .bind_of (hf _ _ ha) fun b' hb => .bind_of ih fun bs' hbs => ?_
    rw [Trace.ofList, Trace.item_bind]
    exact .pure (hb.append hbs)

end Draws
end Engine
end HybridQuery
