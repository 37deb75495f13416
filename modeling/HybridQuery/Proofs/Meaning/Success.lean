import HybridQuery.Proofs.Lifting.Results
import HybridQuery.Proofs.Meaning.Adequacy
import HybridQuery.Proofs.Results

/-!
# What succeeds

What a computation or a trace gives when it does not fail, as an option. Which failure ends it is not
seen, and so the order in which independent parts are computed does not matter: pulling a trace and
transforming a collection come to the same list functions.

* `Engine.value?`: the value of a computation; `Trace.all?`: the results of a trace.
* `Trace.all?_bind`, `Trace.all?_bindFrom`: following a trace is `List.mapM` and flattening.
* `Collection.records?_flatMapM`, `records?_mapM`: so is transforming a collection, whatever its
  partitions.
-/

namespace HybridQuery

variable {env : Environment} {α β : Type}

/-! ## Lists -/

/-- Going through lists one after the other is going through all their members. -/
theorem mapM_flatten {m : Type → Type} [Monad m] [LawfulMonad m] (f : α → m β) (ls : List (List α)) :
    ls.flatten.mapM f = List.flatten <$> ls.mapM fun l : List α => l.mapM f := by
  induction ls with
  | nil => simp
  | cons l ls ih => simp [List.mapM_append, ih]

theorem mapM_eq_pure {m : Type → Type} [Monad m] [LawfulMonad m] {f : α → m β} {g : α → β}
    {l : List α} (h : ∀ a ∈ l, f a = pure (g a)) : l.mapM f = pure (l.map g) := by
  induction l with
  | nil => simp
  | cons a l ih => simp [h a (by simp), ih fun b hb => h b (by simp [hb])]

theorem mem_of_mapM_ok {ε : Type} {f : α → Except ε β} {l : List α} {bs : List β}
    (h : l.mapM f = .ok bs) {b : β} (hb : b ∈ bs) : ∃ a ∈ l, f a = .ok b :=
  exists_of_mem_forall₂ (mapM_eq_ok_iff.mp h) b hb

theorem mapM_singleton_option (f : α → Option β) (l : List α) :
    (l.mapM fun a => (f a).map fun b => [b]).map List.flatten = l.mapM f := by
  induction l with
  | nil => rfl
  | cons a l ih =>
    rw [List.mapM_cons, List.mapM_cons, ← ih]
    cases f a <;> cases l.mapM (fun a => (f a).map fun b => [b]) <;> rfl

/-! ## Traces -/

namespace Trace

/-- All results, unless the trace fails. -/
def all? (t : Trace α) : Option (List α) := t.result.toOption

@[simp] theorem all?_done : (done : Trace α).all? = some [] := rfl

@[simp] theorem all?_failed (f : Failure) : (failed f : Trace α).all? = none := rfl

@[simp] theorem all?_item (a : α) (t : Trace α) : (item a t).all? = t.all?.map (a :: ·) := by
  simp only [all?, result]
  cases t.result <;> rfl

@[simp] theorem all?_one (a : α) : (one a).all? = some [a] := rfl

@[simp] theorem all?_ofList (l : List α) : (ofList l).all? = some l := by
  induction l with
  | nil => rfl
  | cons a l ih => simp [ofList, ih]

@[simp] theorem all?_ahead (t : Trace α) : t.ahead.all? = t.all? := by simp [all?]

@[simp] theorem all?_attempt (r : Except Failure α) (f : α → Trace β) :
    (attempt r f).all? = r.toOption.bind fun a => (f a).all? := by
  cases r <;> rfl

@[simp] theorem all?_locate (t : Trace α) (position : SourcePosition) :
    (t.locate position).all? = t.all? := by
  induction t with
  | done | failed => rfl
  | item a t ih => simp [locate, ih]

theorem all?_append (t u : Trace α) :
    (t.append u).all? = t.all?.bind fun l => u.all?.map (l ++ ·) := by
  induction t with
  | done => cases h : u.all? <;> simp [h]
  | failed => rfl
  | item a t ih =>
    rw [item_append, all?_item, all?_item, ih]
    cases t.all? <;> cases u.all? <;> rfl

theorem all?_bindFrom (f : Nat → α → Trace β) (place : Nat) (t : Trace α) :
    (bindFrom f place t).all? = t.all?.bind fun l =>
      ((l.zipIdx place).mapM fun p => (f p.2 p.1).all?).map List.flatten := by
  induction t generalizing place with
  | done | failed => rfl
  | item a t ih =>
    rw [bindFrom, all?_append, ih, all?_item]
    cases t.all? with
    | none => cases (f place a).all? <;> rfl
    | some l =>
      simp only [Option.map_some, Option.bind_some, List.zipIdx_cons, List.mapM_cons]
      cases (f place a).all? <;>
        cases (l.zipIdx (place + 1)).mapM (fun p => (f p.2 p.1).all?) <;> rfl

theorem all?_bind (f : α → Trace β) (t : Trace α) :
    (t.bind f).all? = t.all?.bind fun l => (l.mapM fun a => (f a).all?).map List.flatten := by
  rw [bind, all?_bindFrom]
  congr 1
  funext l
  congr 1
  conv => rhs; rw [← List.zipIdx_map_fst 0 l, List.mapM_map]
  rfl

theorem result_locate (t : Trace α) (position : SourcePosition) :
    (t.locate position).result = t.result.mapError (·.locate position) := by
  induction t with
  | done | failed => rfl
  | item a t ih =>
    simp only [locate, result, ih]
    cases t.result <;> rfl

theorem result_attempt (r : Except Failure α) (f : α → Trace β) :
    (attempt r f).result = r >>= fun a => (f a).result := by
  cases r <;> rfl

theorem result_ofList (l : List α) : (ofList l).result = .ok l := by
  induction l with
  | nil => rfl
  | cons a l ih => rw [ofList, result, ih]; rfl

theorem result_trace (x : Engine (List α)) : (x.trace env).result = x.result env := by
  rw [Engine.trace, ofResult, result_attempt]
  cases x.result env with
  | error f => rfl
  | ok l => exact result_ofList l

/-- A trace that does not fail is the trace of its results. -/
theorem eq_ofList_of_result {t : Trace α} {l : List α} (h : t.result = .ok l) : t = ofList l := by
  induction t generalizing l with
  | done => cases h; rfl
  | failed => cases h
  | item a t ih =>
    rw [result] at h
    cases ht : t.result with
    | error f => rw [ht] at h; cases h
    | ok l' => rw [ht] at h; cases h; rw [ih ht]; rfl

/-- Gathering the tuples of a trace that does not fail. -/
theorem result_bind_attempt {t : Trace α} {l : List α} (h : t.result = .ok l)
    (r : α → Except Failure β) : (t.bind fun a => attempt (r a) one).result = l.mapM r := by
  rw [eq_ofList_of_result h]
  clear h
  induction l with
  | nil => rfl
  | cons a l ih =>
    rw [ofList, item_bind, result_append, ih, List.mapM_cons, result_attempt]
    cases r a <;> cases l.mapM r <;> rfl

end Trace

/-! ## Computations -/

namespace Engine

/-- The value of a computation, unless it fails. -/
def value? (x : Engine α) (env : Environment) : Option α := (x.result env).toOption

@[simp] theorem value?_pure (a : α) : value? (pure a) env = some a := rfl

theorem value?_bind {x : Engine α} {f : α → Engine β}
    (hf : ∀ a, x.result env = .ok a → (f a).Steady env) :
    (x >>= f).value? env = (x.value? env).bind fun a => (f a).value? env := by
  simp only [value?]
  rw [result_bind hf]
  cases x.result env <;> rfl

@[simp] theorem value?_bind_pure (x : Engine α) (f : α → β) :
    value? (x >>= fun a => pure (f a)) env = (x.value? env).map f := by
  rw [value?_bind fun _ _ _ => rfl]
  cases x.value? env <;> rfl

@[simp] theorem value?_map (x : Engine α) (f : α → β) :
    (f <$> x).value? env = (x.value? env).map f := value?_bind_pure x f

@[simp] theorem value?_locate (x : Engine α) (position : SourcePosition) :
    value? (Run.locate x position) env = x.value? env := by
  simp only [value?]
  rw [result_locate]
  cases x.result env <;> rfl

@[simp] theorem value?_given (r : Environment → Except Failure α) :
    (given r).value? env = (r env).toOption := by simp [value?, result_given]

theorem Steady.listMapM {f : α → Engine β} (hf : ∀ a, (f a).Steady env) (l : List α) :
    (l.mapM f).Steady env :=
  (Tends.listMapM (F := ⊥) (L := True) (f := fun _ => f) (fun a => .of_steady (hf a)) l).1

theorem Steady.collectionMapM {f : α → Engine β} (hf : ∀ a, (f a).Steady env) (c : Collection α) :
    (c.mapM f).Steady env :=
  Tends.steady_bind (.listMapM (fun p => .listMapM hf p) c.partitions) fun _ _ => rfl

theorem result_listMapM {f : α → Engine β} (hf : ∀ a, (f a).Steady env) (l : List α) :
    (l.mapM f).result env = l.mapM fun a => (f a).result env := by
  induction l with
  | nil => rfl
  | cons a l ih =>
    rw [List.mapM_cons, List.mapM_cons,
      result_bind fun b _ => Tends.steady_bind (.listMapM hf l) fun _ _ => rfl]
    simp only [result_bind (f := fun bs => pure (_ :: bs)) (fun _ _ _ => rfl), ih]
    rfl

theorem value?_listMapM {f : α → Engine β} (hf : ∀ a, (f a).Steady env) (l : List α) :
    (l.mapM f).value? env = l.mapM fun a => (f a).value? env := by
  induction l with
  | nil => rfl
  | cons a l ih =>
    rw [List.mapM_cons, List.mapM_cons,
      value?_bind fun b _ => Tends.steady_bind (.listMapM hf l) fun _ _ => rfl]
    simp only [value?_bind_pure, ih]
    cases (f a).value? env <;> cases l.mapM (fun a => (f a).value? env) <;> rfl

/-- Pulling a collection to the host comes to what the cap lets through. -/
theorem result_materialize (c : Collection α) (position : SourcePosition) :
    (materialize c position).result env =
      ((c.capped env.materializationCap).locate position).raised := by
  simp only [result, materialize, Run.environment, Bind.bind, ReaderT.bind, EStateM.bind]
  cases (c.capped env.materializationCap).locate position <;> rfl

/-- Pulling a collection to the host without a cap always succeeds. -/
theorem value?_materialize (hcap : env.materializationCap = none) (c : Collection α)
    (position : SourcePosition) : (materialize c position).value? env = some c.records := by
  rw [value?, result_materialize, hcap]
  rfl

end Engine

/-! ## Computations that end alike -/

/-- Two results are related, or they are the same failure. -/
inductive Alike (R : α → β → Prop) : Except Failure α → Except Failure β → Prop
  | ok {a : α} {b : β} (h : R a b) : Alike R (.ok a) (.ok b)
  | error (f : Failure) : Alike R (.error f) (.error f)

theorem Alike.mapError {R : α → β → Prop} {x : Except Failure α} {y : Except Failure β}
    (h : Alike R x y) (f : Failure → Failure) : Alike R (x.mapError f) (y.mapError f) := by
  cases h with
  | ok h => exact .ok h
  | error e => exact .error (f e)

theorem Alike.bind {γ δ : Type} {R : α → β → Prop} {Q : γ → δ → Prop} {x : Except Failure α}
    {y : Except Failure β} (h : Alike R x y) {f : α → Except Failure γ} {g : β → Except Failure δ}
    (hf : ∀ a b, R a b → Alike Q (f a) (g b)) : Alike Q (x >>= f) (y >>= g) := by
  cases h with
  | ok h => exact hf _ _ h
  | error e => exact .error e

/-- Two computations of growing depth settle on related results, or on the same error. -/
structure SettleAlike (env : Environment) (R : α → β → Prop) (x : ℕ → Engine α) (y : ℕ → Engine β) :
    Prop where
  left : ∀ a, Settles env x (.ok a) → ∃ b, Settles env y (.ok b) ∧ R a b
  right : ∀ b, Settles env y (.ok b) → ∃ a, Settles env x (.ok a) ∧ R a b
  error : ∀ e, Settles env x (.error e) ↔ Settles env y (.error e)

theorem SettleAlike.of_meant {R : α → β → Prop} {x x' : ℕ → Engine α} {y y' : ℕ → Engine β}
    (hx : Meant env x x') (hy : Meant env y y')
    (h : ∀ᶠ depth in Filter.atTop, Alike R ((x' depth).result env) ((y' depth).result env)) :
    SettleAlike env R x y where
  left a ha := by
    obtain ⟨depth, hd, ha⟩ := (h.and (hx.settles_iff_eventually.mp ha)).exists
    rw [ha] at hd
    generalize hb : (y' depth).result env = b at hd
    cases hd with
    | ok hr => exact ⟨_, hy.settles_of_result depth hb, hr⟩
  right b hb := by
    obtain ⟨depth, hd, hb⟩ := (h.and (hy.settles_iff_eventually.mp hb)).exists
    rw [hb] at hd
    generalize ha : (x' depth).result env = a at hd
    cases hd with
    | ok hr => exact ⟨_, hx.settles_of_result depth ha, hr⟩
  error e := by
    rw [hx.settles_iff_eventually, hy.settles_iff_eventually]
    refine Filter.eventually_congr (h.mono fun depth hd => ?_)
    generalize (x' depth).result env = a, (y' depth).result env = b at hd
    cases hd with
    | ok => simp [EngineResult.raised, Except.mapError]
    | error => simp [EngineResult.raised, Except.mapError]

theorem SettleAlike.mono {R R' : α → β → Prop} {x : ℕ → Engine α} {y : ℕ → Engine β}
    (h : SettleAlike env R x y) (hR : ∀ a b, R a b → R' a b) : SettleAlike env R' x y where
  left a ha := (h.left a ha).imp fun b hb => hb.imp_right (hR a b)
  right b hb := (h.right b hb).imp fun a ha => ha.imp_right (hR a b)
  error := h.error

theorem SettleAlike.of_settles {R : α → β → Prop} {x : ℕ → Engine α} {y : ℕ → Engine β} {a : α} {b : β}
    (hx : Settles env x (.ok a)) (hy : Settles env y (.ok b)) (h : R a b) : SettleAlike env R x y where
  left a' ha := by cases hx.unique ha; exact ⟨b, hy, h⟩
  right b' hb := by cases hy.unique hb; exact ⟨a, hx, h⟩
  error e := ⟨fun he => (nomatch hx.unique he), fun he => (nomatch hy.unique he)⟩

/-- Computations that settle alike mean the same at all large depths; what does not settle is exhausted
at each of them. -/
theorem SettleAlike.eventually {R : α → β → Prop} {x x' : ℕ → Engine α} {y y' : ℕ → Engine β}
    (hx : Meant env x x') (hy : Meant env y y') (h : SettleAlike env R x y) :
    ∀ᶠ depth in Filter.atTop, Alike R ((x' depth).result env) ((y' depth).result env) := by
  by_cases hsettles : ∃ d, Settles env x d
  · obtain ⟨d, hd⟩ := hsettles
    cases d with
    | ok a =>
      obtain ⟨b, hb, hr⟩ := h.left a hd
      filter_upwards [hx.settles_iff_eventually.mp hd, hy.settles_iff_eventually.mp hb] with n ha hb
      rw [ha, hb]
      exact .ok hr
    | error e =>
      filter_upwards [hx.settles_iff_eventually.mp hd,
        hy.settles_iff_eventually.mp ((h.error e).mp hd)] with n ha hb
      rw [ha, hb]
      exact .error _
  · refine .of_forall fun n => ?_
    have hxn : (x' n).result env = .error .exhausted :=
      hx.result_of_unsettled (fun d hd => hsettles ⟨d, hd⟩) n
    have hyn : (y' n).result env = .error .exhausted := by
      refine hy.result_of_unsettled (fun d hd => ?_) n
      cases d with
      | ok b =>
        obtain ⟨a, ha, -⟩ := h.right b hd
        exact hsettles ⟨_, ha⟩
      | error e => exact hsettles ⟨_, (h.error e).mpr hd⟩
    rw [hxn, hyn]
    exact .error _

/-- A computation settles on a value that it means at all large depths. -/
theorem Meant.settles_ok_iff {x y : ℕ → Engine α} (h : Meant env x y) {a : α} :
    Settles env x (.ok a) ↔ ∀ᶠ depth in Filter.atTop, (y depth).value? env = some a := by
  rw [h.settles_iff_eventually]
  refine Filter.eventually_congr (.of_forall fun depth => ?_)
  rw [Engine.value?]
  cases (y depth).result env <;> simp [EngineResult.raised, Except.mapError, Except.toOption]

/-- What a computation means at some depth is what it settles on. -/
theorem Meant.settles_of_value? {x y : ℕ → Engine α} (h : Meant env x y) (depth : Nat) {a : α}
    (ha : (y depth).value? env = some a) : Settles env x (.ok a) := by
  refine h.settles_of_result depth ?_
  rw [Engine.value?] at ha
  cases hr : (y depth).result env with
  | error f => rw [hr] at ha; cases ha
  | ok b => rw [hr] at ha; cases ha; rfl

/-- What holds at all large depths holds so many levels deeper as well, and the other way round. -/
theorem eventually_add_iff {P : ℕ → Prop} (k : ℕ) :
    (∀ᶠ depth in Filter.atTop, P (depth + k)) ↔ ∀ᶠ depth in Filter.atTop, P depth := by
  conv => rhs; rw [← Filter.map_add_atTop_eq_nat k, Filter.eventually_map]

/-! ## Collections -/

namespace Collection

/-- The records of a collection that is computed, unless that fails. -/
def records? (x : Engine (Collection α)) (env : Environment) : Option (List α) :=
  (x.value? env).map records

theorem records?_flatMapM {f : α → Engine (List β)} (hf : ∀ a, (f a).Steady env)
    (c : Collection α) :
    records? (c.flatMapM f) env =
      (c.records.mapM fun a => (f a).value? env).map List.flatten := by
  have hpart (p : List α) : Engine.Steady env (do return (← p.mapM f).flatten) :=
    Tends.steady_bind (.listMapM hf p) fun _ _ => rfl
  have hvalue (p : List α) : Engine.value? (do return (← p.mapM f).flatten) env =
      (p.mapM fun a => (f a).value? env).map List.flatten := by
    rw [Engine.value?_bind_pure, Engine.value?_listMapM hf]
  rw [records?, flatMapM, Engine.value?_bind_pure, Engine.value?_listMapM hpart, records,
    mapM_flatten]
  simp only [hvalue]
  generalize c.partitions = ps
  induction ps with
  | nil => rfl
  | cons p ps ih =>
    rw [List.mapM_cons, List.mapM_cons]
    cases p.mapM fun a => (f a).value? env with
    | none => rfl
    | some l =>
      revert ih
      cases ps.mapM fun p => p.mapM fun a => (f a).value? env <;>
        cases ps.mapM fun p : List α => (p.mapM fun a => (f a).value? env).map List.flatten
      all_goals simp [records]

/-- A transform of every record fails as it does on the list of the records. -/
theorem result_mapM {f : α → Engine β} (hf : ∀ a, (f a).Steady env) (c : Collection α) :
    records <$> (c.mapM f).result env = c.records.mapM fun a => (f a).result env := by
  rw [mapM, Engine.result_bind fun _ _ _ => rfl, Engine.result_listMapM fun p => .listMapM hf p,
    records, mapM_flatten]
  simp only [Engine.result_listMapM hf]
  cases c.partitions.mapM fun p => p.mapM fun a => (f a).result env <;> rfl

theorem records?_mapM {f : α → Engine β} (hf : ∀ a, (f a).Steady env) (c : Collection α) :
    records? (c.mapM f) env = c.records.mapM fun a => (f a).value? env := by
  rw [records?, mapM, Engine.value?_bind_pure,
    Engine.value?_listMapM fun p => .listMapM hf p, records, mapM_flatten]
  simp only [Engine.value?_listMapM hf]
  cases c.partitions.mapM fun p => p.mapM fun a => (f a).value? env <;> rfl

/-- Numbering the records numbers them in partition order. -/
theorem records_zipWithIndex (c : Collection α) : c.zipWithIndex.records = c.records.zipIdx := by
  have hindex (ps : List (List α)) (start : Nat) :
      (indexPartitions start ps).flatten = ps.flatten.zipIdx start := by
    induction ps generalizing start with
    | nil => rfl
    | cons p ps ih => simp [indexPartitions, ih, List.zipIdx_append]
  exact hindex c.partitions 0

theorem records_map (f : α → β) (c : Collection α) : (c.map f).records = c.records.map f := by
  simp [map, records, List.map_flatten]

theorem isEmpty_eq (c : Collection α) : c.isEmpty = c.records.isEmpty := by
  simp only [isEmpty, records]
  induction c.partitions with
  | nil => rfl
  | cons p ps ih => cases p <;> simp_all

theorem count_eq (c : Collection α) : c.count = c.records.length := by
  have hfold (n : Nat) (ps : List (List α)) :
      ps.foldl (fun n p => n + p.length) n = n + ps.flatten.length := by
    induction ps generalizing n with
    | nil => rfl
    | cons p ps ih => rw [List.foldl_cons, ih, List.flatten_cons, List.length_append, Nat.add_assoc]
  rw [count, hfold, Nat.zero_add]
  rfl

theorem flatten_pieces {size : Nat} (hsize : 0 < size) {steps : Nat} {l : List α}
    (h : l.length ≤ steps) : (pieces size steps l).flatten = l := by
  induction steps generalizing l with
  | zero => simp_all [pieces]
  | succ steps ih =>
    rw [pieces]
    cases l with
    | nil => rfl
    | cons a l =>
      simp only [List.isEmpty_cons, Bool.false_eq_true, ↓reduceIte, List.flatten_cons]
      rw [ih (by simp only [List.length_drop, List.length_cons] at h ⊢; omega), List.take_append_drop]

@[simp] theorem records_parallelize (l : List α) (count : Nat) :
    (parallelize l count).records = l := flatten_pieces (by omega) le_rfl

end Collection

/-- The tuples of a first `for` clause over a distributed source are those over its items. -/
theorem ForVariables.records_sourceTuples (v : ForVariables) (allowingEmpty : Bool)
    (c : Collection Item) :
    (v.sourceTuples allowingEmpty c).records = v.expand allowingEmpty .empty c.records := by
  rw [sourceTuples, expand, Collection.isEmpty_eq]
  split
  · exact Collection.records_parallelize _ 1
  · rw [Collection.records_map, Collection.records_zipWithIndex, List.zipIdx_succ, List.map_map]
    rfl

end HybridQuery
