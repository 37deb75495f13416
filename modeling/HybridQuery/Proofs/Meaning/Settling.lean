import Mathlib.Data.List.Forall2
import HybridQuery.Proofs.Meaning.Success

/-!
# What combined computations settle on

A computation that is made of others settles on what those settle on. One after the other, they settle
on the value of the last or raise the first error; so do the members of a list.

* `Raises`: a computation settles on an error.
* `Meant.settles_bind_iff`, `Meant.raises_bind_iff`: one computation after the other.
* `Meant.settles_listMapM_iff`, `Meant.raises_listMapM_iff`: the members of a list.
* `settles_steady_iff`: a computation that is the same at all depths.
* `SettlesIf`: a computation that has its value on a condition and raises an error otherwise.
-/

namespace HybridQuery

variable {env : Environment} {α β : Type}

/-- From some depth on a computation ends in an error. -/
def Raises (env : Environment) (x : ℕ → Engine α) : Prop := ∃ e, Settles env x (.error e)

theorem Settles.not_raises {x : ℕ → Engine α} {a : α} (h : Settles env x (.ok a)) : ¬ Raises env x :=
  fun ⟨_, he⟩ => nomatch h.unique he

/-! ## The same at all depths -/

theorem Meant.of_steady {x : Engine α} (hx : x.Steady env) : Meant env (fun _ => x) fun _ => x :=
  ⟨fun _ => .of_steady hx, fun _ => .of_steady hx⟩

/-- A computation that is the same at all depths settles on its result. -/
theorem settles_steady_iff {x : Engine α} (hx : x.Steady env) {d : EngineResult α} :
    Settles env (fun _ => x) d ↔ x.result env = d.raised := by
  rw [(Meant.of_steady hx).settles_iff, exists_const]

theorem settles_pure_iff {a b : α} : Settles env (fun _ => pure a) (.ok b) ↔ a = b := by
  rw [settles_steady_iff fun _ => rfl]
  exact ⟨fun h => Except.ok.inj h, fun h => congrArg _ h⟩

theorem not_raises_pure {a : α} : ¬ Raises env fun _ => pure a :=
  Settles.not_raises (settles_pure_iff.mpr rfl)

theorem settles_ofResult_iff {d d' : EngineResult α} :
    Settles env (fun _ => Run.ofResult d) d' ↔ d = d' := by
  rw [settles_steady_iff (Tends.ofResult (F := ⊥) (L := True) d).1, Engine.result_ofResult]
  cases d <;> cases d' <;> simp [EngineResult.raised, Except.mapError]

/-! ## One after the other -/

section
variable {x : ℕ → Engine α} {k : ℕ → α → Engine β}

/-- What follows a computation that settles on a value. -/
theorem Settles.bind {a : α} {d : EngineResult β} (hx : Settles env x (.ok a))
    (hk : Settles env (fun depth => k depth a) d) : Settles env (fun depth => x depth >>= k depth) d := by
  obtain ⟨⟨n, hn⟩, ⟨m, hm⟩⟩ := And.intro hx hk
  refine ⟨max n m, fun depth hdepth r => ?_⟩
  obtain ⟨r', hr⟩ := hn depth (le_trans (le_max_left n m) hdepth) r
  obtain ⟨r'', hr'⟩ := hm depth (le_trans (le_max_right n m) hdepth) r'
  refine ⟨r'', ?_⟩
  simp only [Bind.bind, ReaderT.bind, EStateM.bind]
  rw [hr]
  exact hr'

/-- An error ends what would follow. -/
theorem Settles.bind_error {e : EngineError} (hx : Settles env x (.error e)) :
    Settles env (fun depth => x depth >>= k depth) (.error e) := by
  obtain ⟨n, hn⟩ := hx
  refine ⟨n, fun depth hdepth r => ?_⟩
  obtain ⟨r', hr⟩ := hn depth hdepth r
  refine ⟨r', ?_⟩
  simp only [Bind.bind, ReaderT.bind, EStateM.bind]
  rw [hr]

end

namespace Meant

variable {x y : ℕ → Engine α} {k l : ℕ → α → Engine β}

theorem bind (hx : Meant env x y)
    (hk : ∀ a, Meant env (fun depth => k depth a) fun depth => l depth a) :
    Meant env (fun depth => x depth >>= k depth) fun depth => y depth >>= l depth :=
  ⟨fun depth => (hx.within depth).bind fun a => (hk a).within depth,
    fun depth => (hx.eventually depth).bind fun a => (hk a).eventually depth⟩

theorem result_bind (hk : ∀ a, Meant env (fun depth => k depth a) fun depth => l depth a) (depth : Nat) :
    (y depth >>= l depth).result env =
      (y depth).result env >>= fun a => (l depth a).result env :=
  Engine.result_bind fun a _ => ((hk a).within depth).1

theorem settles_bind_iff (hx : Meant env x y)
    (hk : ∀ a, Meant env (fun depth => k depth a) fun depth => l depth a) {b : β} :
    Settles env (fun depth => x depth >>= k depth) (.ok b) ↔
      ∃ a, Settles env x (.ok a) ∧ Settles env (fun depth => k depth a) (.ok b) := by
  refine ⟨fun h => ?_, fun ⟨_, ha, hb⟩ => ha.bind hb⟩
  obtain ⟨depth, hd⟩ := (hx.bind hk).settles_iff.mp h
  rw [result_bind hk] at hd
  cases ha : (y depth).result env with
  | error f => rw [ha] at hd; cases hd
  | ok a =>
    rw [ha] at hd
    exact ⟨a, hx.settles_of_result (d := .ok a) depth ha, (hk a).settles_of_result depth hd⟩

theorem raises_bind_iff (hx : Meant env x y)
    (hk : ∀ a, Meant env (fun depth => k depth a) fun depth => l depth a) :
    Raises env (fun depth => x depth >>= k depth) ↔
      Raises env x ∨ ∃ a, Settles env x (.ok a) ∧ Raises env fun depth => k depth a := by
  constructor
  · rintro ⟨e, he⟩
    obtain ⟨depth, hd⟩ := (hx.bind hk).settles_iff.mp he
    rw [result_bind hk] at hd
    cases ha : (y depth).result env with
    | error f =>
      rw [ha] at hd
      cases hd
      exact .inl ⟨e, hx.settles_of_result (d := .error e) depth ha⟩
    | ok a =>
      rw [ha] at hd
      exact .inr ⟨a, hx.settles_of_result (d := .ok a) depth ha, e,
        (hk a).settles_of_result depth hd⟩
  · rintro (⟨e, he⟩ | ⟨a, ha, e, he⟩)
    · exact ⟨e, he.bind_error⟩
    · exact ⟨e, ha.bind he⟩

/-- What follows a result that is at hand. -/
theorem settles_ofResult_bind_iff {d : EngineResult α}
    (hk : ∀ a, Meant env (fun depth => k depth a) fun depth => l depth a) {b : β} :
    Settles env (fun depth => Run.ofResult d >>= k depth) (.ok b) ↔
      ∃ a, d = .ok a ∧ Settles env (fun depth => k depth a) (.ok b) := by
  have hd : Meant env (fun _ => Run.ofResult d) fun _ => Run.ofResult d :=
    .of_steady (Tends.ofResult (F := ⊥) (L := True) d).1
  simp only [hd.settles_bind_iff hk, settles_ofResult_iff]

theorem raises_ofResult_bind_iff {d : EngineResult α}
    (hk : ∀ a, Meant env (fun depth => k depth a) fun depth => l depth a) :
    Raises env (fun depth => Run.ofResult d >>= k depth) ↔
      (∃ e, d = .error e) ∨ ∃ a, d = .ok a ∧ Raises env fun depth => k depth a := by
  have hd : Meant env (fun _ => Run.ofResult d) fun _ => Run.ofResult d :=
    .of_steady (Tends.ofResult (F := ⊥) (L := True) d).1
  rw [hd.raises_bind_iff hk, Raises]
  simp only [settles_ofResult_iff]

/-! ## Values put together -/

theorem map (hx : Meant env x y) (f : α → β) :
    Meant env (fun depth => f <$> x depth) fun depth => f <$> y depth :=
  ⟨fun depth => (hx.within depth).map f, fun depth => (hx.eventually depth).map f⟩

theorem settles_map_iff (hx : Meant env x y) {f : α → β} {b : β} :
    Settles env (fun depth => f <$> x depth) (.ok b) ↔ ∃ a, Settles env x (.ok a) ∧ f a = b := by
  have hpure (a : α) : Meant env (fun _ => pure (f a)) fun _ => pure (f a) :=
    .of_steady fun _ => rfl
  simpa only [bind_pure_comp, settles_pure_iff] using hx.settles_bind_iff hpure

theorem raises_map_iff (hx : Meant env x y) {f : α → β} :
    Raises env (fun depth => f <$> x depth) ↔ Raises env x := by
  have hpure (a : α) : Meant env (fun _ => pure (f a)) fun _ => pure (f a) :=
    .of_steady fun _ => rfl
  simpa only [bind_pure_comp, not_raises_pure, and_false, exists_false, or_false] using
    hx.raises_bind_iff hpure

/-! ## Positions -/

theorem locate (h : Meant env x y) (position : SourcePosition) :
    Meant env (fun depth => Run.locate (x depth) position) fun depth =>
      Run.locate (y depth) position :=
  ⟨fun depth => (h.within depth).locate position, fun depth => (h.eventually depth).locate position⟩

/-- To blame a position for a failure changes no value. -/
theorem settles_locate_iff (h : Meant env x y) {position : SourcePosition} {a : α} :
    Settles env (fun depth => Run.locate (x depth) position) (.ok a) ↔ Settles env x (.ok a) := by
  rw [(h.locate position).settles_ok_iff, h.settles_ok_iff]
  simp only [Engine.value?_locate]

theorem raises_locate_iff (h : Meant env x y) {position : SourcePosition} :
    (Raises env fun depth => Run.locate (x depth) position) ↔ Raises env x := by
  constructor
  · rintro ⟨e, he⟩
    obtain ⟨depth, hd⟩ := (h.locate position).settles_iff.mp he
    rw [Engine.result_locate] at hd
    cases hy : (y depth).result env with
    | ok a => rw [hy] at hd; cases hd
    | error f =>
      cases f with
      | exhausted => rw [hy] at hd; cases hd
      | raised e' => exact ⟨e', h.settles_of_result (d := .error e') depth hy⟩
  · rintro ⟨e, he⟩
    obtain ⟨depth, hd⟩ := h.settles_iff.mp he
    refine ⟨e.locate position, (h.locate position).settles_of_result depth ?_⟩
    rw [Engine.result_locate, hd]
    rfl

/-! ## Lists -/

section
variable {f g : ℕ → α → Engine β}

theorem listMapM (hf : ∀ a, Meant env (fun depth => f depth a) fun depth => g depth a) (l : List α) :
    Meant env (fun depth => l.mapM (f depth)) fun depth => l.mapM (g depth) :=
  ⟨fun depth => .listMapM (fun a => (hf a).within depth) l,
    fun depth => .listMapM (fun a => (hf a).eventually depth) l⟩

/-- The values of a list are those of its members. -/
theorem settles_listMapM_iff (hf : ∀ a, Meant env (fun depth => f depth a) fun depth => g depth a)
    {l : List α} {bs : List β} : Settles env (fun depth => l.mapM (f depth)) (.ok bs) ↔
      List.Forall₂ (fun a b => Settles env (fun depth => f depth a) (.ok b)) l bs := by
  induction l generalizing bs with
  | nil => simp only [List.mapM_nil, settles_pure_iff, List.forall₂_nil_left_iff, eq_comm]
  | cons a l ih =>
    simp only [List.mapM_cons, bind_pure_comp]
    rw [(hf a).settles_bind_iff fun b => (listMapM hf l).map (b :: ·), List.forall₂_cons_left_iff]
    refine exists_congr fun b => ?_
    rw [(listMapM hf l).settles_map_iff]
    simp only [ih]
    exact ⟨fun ⟨hb, rest, hrest, hbs⟩ => ⟨rest, hb, hrest, hbs.symm⟩,
      fun ⟨rest, hb, hrest, hbs⟩ => ⟨hb, rest, hrest, hbs.symm⟩⟩

/-- A list raises an error at the first member that raises one, after members that have values. -/
theorem raises_listMapM_iff (hf : ∀ a, Meant env (fun depth => f depth a) fun depth => g depth a)
    {l : List α} : Raises env (fun depth => l.mapM (f depth)) ↔
      ∃ before a after, l = before ++ a :: after ∧
        (∀ c ∈ before, ∃ b, Settles env (fun depth => f depth c) (.ok b)) ∧
          Raises env fun depth => f depth a := by
  induction l with
  | nil =>
    simp only [List.mapM_nil]
    exact ⟨fun h => absurd h not_raises_pure, fun ⟨before, _, _, h, _⟩ => by cases before <;> cases h⟩
  | cons a l ih =>
    simp only [List.mapM_cons, bind_pure_comp]
    rw [(hf a).raises_bind_iff fun b => (listMapM hf l).map (b :: ·)]
    simp only [(listMapM hf l).raises_map_iff, ih]
    constructor
    · rintro (ha | ⟨b, hb, before, c, after, rfl, hbefore, hc⟩)
      · exact ⟨[], a, l, rfl, nofun, ha⟩
      · exact ⟨a :: before, c, after, rfl, List.forall_mem_cons.mpr ⟨⟨b, hb⟩, hbefore⟩, hc⟩
    · rintro ⟨before, c, after, hl, hbefore, hc⟩
      cases before with
      | nil =>
        cases hl
        exact .inl hc
      | cons a' before =>
        cases hl
        obtain ⟨⟨b, hb⟩, hbefore⟩ := List.forall_mem_cons.mp hbefore
        exact .inr ⟨b, hb, before, c, after, rfl, hbefore, hc⟩

end
end Meant

/-! ## On a condition -/

/-- A computation settles on a value if a condition holds, and raises an error otherwise. -/
structure SettlesIf (env : Environment) (x : ℕ → Engine α) (P : Prop) (a : α) : Prop where
  settles : P → Settles env x (.ok a)
  raises : ¬P → Raises env x

namespace SettlesIf

variable {x : ℕ → Engine α} {P : Prop} {a : α}

theorem congr {Q : Prop} {b : α} (h : SettlesIf env x P a) (hPQ : P ↔ Q) (hab : a = b) :
    SettlesIf env x Q b := hab ▸ ⟨fun hq => h.settles (hPQ.mpr hq), fun hq => h.raises (mt hPQ.mp hq)⟩

theorem pure (a : α) : SettlesIf env (fun _ => Pure.pure a) True a :=
  ⟨fun _ => settles_pure_iff.mpr rfl, fun h => absurd trivial h⟩

theorem bind {k : ℕ → α → Engine β} {Q : Prop} {b : β} (hx : SettlesIf env x P a)
    (hk : SettlesIf env (fun depth => k depth a) Q b) :
    SettlesIf env (fun depth => x depth >>= k depth) (P ∧ Q) b := by
  refine ⟨fun h => (hx.settles h.1).bind (hk.settles h.2), fun h => ?_⟩
  by_cases hP : P
  · obtain ⟨e, he⟩ := hk.raises fun hQ => h ⟨hP, hQ⟩
    exact ⟨e, (hx.settles hP).bind he⟩
  · obtain ⟨e, he⟩ := hx.raises hP
    exact ⟨e, he.bind_error⟩

theorem map (h : SettlesIf env x P a) (f : α → β) :
    SettlesIf env (fun depth => f <$> x depth) P (f a) := by
  simpa only [bind_pure_comp, and_true] using h.bind (k := fun _ b => Pure.pure (f b)) (pure (f a))

theorem listMapM {f : ℕ → α → Engine β} {P : α → Prop} {g : α → β} {l : List α}
    (hf : ∀ a ∈ l, SettlesIf env (fun depth => f depth a) (P a) (g a)) :
    SettlesIf env (fun depth => l.mapM (f depth)) (∀ a ∈ l, P a) (l.map g) := by
  induction l with
  | nil => exact (pure []).congr ⟨fun _ => nofun, fun _ => trivial⟩ rfl
  | cons a l ih =>
    obtain ⟨ha, hl⟩ := List.forall_mem_cons.mp hf
    simp only [List.mapM_cons, bind_pure_comp]
    exact (ha.bind ((ih hl).map (g a :: ·))).congr List.forall_mem_cons.symm rfl

theorem settles_iff (h : SettlesIf env x P a) {b : α} : Settles env x (.ok b) ↔ P ∧ a = b := by
  refine ⟨fun hb => ?_, fun ⟨hP, hab⟩ => hab ▸ h.settles hP⟩
  have hP : P := not_not.mp fun hP => hb.not_raises (h.raises hP)
  exact ⟨hP, Except.ok.inj ((h.settles hP).unique hb)⟩

theorem raises_iff (h : SettlesIf env x P a) : Raises env x ↔ ¬P :=
  ⟨fun hr hP => (h.settles hP).not_raises hr, h.raises⟩

end SettlesIf
end HybridQuery
