import HybridQuery.Proofs.Inherited

/-!
# Computations under a cap

A cap on what is pulled to the host only guards a computation: it lets the computation run as it does
with a looser cap or none, or it stops it with an error of its own.

* `Collection.capped_eq`: what a cap lets through, said without the word size.
* `Run.Guarded`: a computation that a cap only guards. There is one rule for every way to combine
  computations, `Run.Guarded.inherited` for those of the engine.
-/

namespace HybridQuery

/-! ## Caps -/

/-- A cap that fits a machine word, beside one that lets at least as much through, or none. -/
def CapWithin (cap : Nat) (looser : Option Nat) : Prop :=
  cap + 1 < wordBound ∧ ∀ c, looser = some c → cap ≤ c ∧ c + 1 < wordBound

theorem CapWithin.none {cap : Nat} (h : cap + 1 < wordBound) : CapWithin cap none := ⟨h, nofun⟩

theorem CapWithin.some {cap larger : Nat} (hle : cap ≤ larger) (h : larger + 1 < wordBound) :
    CapWithin cap (some larger) := by
  refine ⟨by omega, fun c hc => ?_⟩
  cases hc
  exact ⟨hle, h⟩

/-- The failure of a collection that holds more than may be pulled to the host. -/
def Failure.IsLimit (f : Failure) : Prop :=
  ∃ cap position, f = .raised ⟨.materializationLimit cap, position⟩

theorem Failure.IsLimit.locate {f : Failure} (h : f.IsLimit) (position : SourcePosition) :
    (f.locate position).IsLimit := by
  obtain ⟨cap, blamed, rfl⟩ := h
  cases blamed with
  | none => exact ⟨cap, position, rfl⟩
  | some blamed => exact ⟨cap, blamed, rfl⟩

theorem Failure.IsLimit.code {f : Failure} (h : f.IsLimit) :
    ∃ e, f = .raised e ∧ e.code = .materializationLimit := by
  obtain ⟨cap, position, rfl⟩ := h
  exact ⟨_, rfl, rfl⟩

/-- What a cap lets through: everything, or nothing if there is more. -/
theorem Collection.capped_eq {α : Type} (c : Collection α) {cap : Nat} (h : cap + 1 < wordBound) :
    c.capped (some cap) =
      if cap < c.records.length then .fail (.materializationLimit cap) else .ok c.records := by
  simp only [Collection.capped, Collection.take, Nat.mod_eq_of_lt h]
  by_cases hlong : cap < c.records.length
  · have htaken : (c.records.take (cap + 1)).length > cap := by
      rw [List.length_take]
      omega
    simp only [if_pos htaken, if_pos hlong]
  · have hall : c.records.take (cap + 1) = c.records := List.take_of_length_le (by omega)
    simp only [hall, gt_iff_lt, if_neg hlong]

/-- A cap stops what it does not let through as a looser one does. -/
theorem Collection.capped_within {α : Type} (c : Collection α) {cap : Nat} {looser : Option Nat}
    (h : CapWithin cap looser) :
    c.capped (some cap) = c.capped looser ∨
      c.capped (some cap) = .fail (.materializationLimit cap) := by
  obtain ⟨hcap, hlooser⟩ := h
  rw [c.capped_eq hcap]
  by_cases hlong : cap < c.records.length
  · exact .inr (if_pos hlong)
  · left
    rw [if_neg hlong]
    cases looser with
    | none => rfl
    | some larger =>
      obtain ⟨hle, hlarger⟩ := hlooser larger rfl
      rw [c.capped_eq hlarger, if_neg (by omega)]

/-! ## Guarded computations -/

/-- Under the cap a computation ends as it does under any looser one, or it fails at the cap. -/
def Run.Guarded {σ α : Type} (cap : Nat) (x : Run σ α) : Prop :=
  ∀ env s, CapWithin cap env.materializationCap →
    x (env.withCap (some cap)) s = x env s ∨
      ∃ f s', x (env.withCap (some cap)) s = .error f s' ∧ f.IsLimit

namespace Run.Guarded

variable {σ τ υ α β : Type} {cap : Nat}

/-- A computation that does not read the cap. -/
theorem of_eq {x : Run σ α} (h : ∀ env cap, x (env.withCap cap) = x env) : Guarded cap x :=
  fun env s _ => .inl (by rw [h])

theorem pure (a : α) : Guarded cap (pure a : Run σ α) := .of_eq fun _ _ => rfl

theorem raise (e : EngineError) : Guarded cap (Run.raise e : Run σ α) := .of_eq fun _ _ => rfl

theorem fail (fault : Fault) : Guarded cap (Run.fail fault : Run σ α) := .of_eq fun _ _ => rfl

theorem exhausted : Guarded cap (Run.exhausted : Run σ α) := .of_eq fun _ _ => rfl

theorem ofResult (d : EngineResult α) : Guarded cap (Run.ofResult d : Run σ α) := by
  cases d with
  | ok a => exact .pure a
  | error e => exact .raise e

theorem bind {x : Run σ α} {f : α → Run σ β} (hx : Guarded cap x) (hf : ∀ a, Guarded cap (f a)) :
    Guarded cap (x >>= f) := by
  intro env s hcap
  change EStateM.bind _ _ s = EStateM.bind _ _ s ∨ ∃ g s', EStateM.bind _ _ s = _ ∧ _
  unfold EStateM.bind
  rcases hx env s hcap with hsame | ⟨g, s', hlimit, hg⟩
  · rw [hsame]
    cases x env s with
    | ok a s' => exact hf a env s' hcap
    | error g s' => exact .inl rfl
  · rw [hlimit]
    exact .inr ⟨g, s', rfl, hg⟩

theorem environment {f : Environment → Run σ α} (hcap : ∀ env cap, f (env.withCap cap) = f env)
    (hf : ∀ env, Guarded cap (f env)) : Guarded cap (Run.environment >>= f) := by
  intro env s h
  have := hf env env s h
  change f (env.withCap _) (env.withCap _) s = f env env s ∨ ∃ g s', f (env.withCap _) _ s = _ ∧ _
  rwa [hcap]

theorem locate {x : Run σ α} (hx : Guarded cap x) (position : SourcePosition) :
    Guarded cap (x.locate position) := by
  intro env s hcap
  unfold Run.locate
  rcases hx env s hcap with hsame | ⟨g, s', hlimit, hg⟩
  · exact .inl (by rw [hsame])
  · rw [hlimit]
    exact .inr ⟨g.locate position, s', rfl, hg.locate position⟩

theorem onFailure {x : Run σ α} {cleanUp : Run σ Unit} (hx : Guarded cap x)
    (hclean : ∀ env cap, cleanUp (env.withCap cap) = cleanUp env) :
    Guarded cap (x.onFailure cleanUp) := by
  intro env s hcap
  unfold Run.onFailure
  rcases hx env s hcap with hsame | ⟨g, s', hlimit, hg⟩
  · exact .inl (by rw [hsame, hclean])
  · rw [hlimit]
    right
    cases hc : cleanUp (env.withCap (some cap)) s' with
    | ok u s'' => exact ⟨g, s'', by simp only [hc], hg⟩
    | error g' s'' => exact ⟨g, s'', by simp only [hc], hg⟩

/-! ### Steps -/

theorem read : Guarded cap (Step.read : Step τ τ) := .of_eq fun _ _ => rfl

theorem write (t : τ) : Guarded cap (Step.write t) := .of_eq fun _ _ => rfl

theorem lift {x : Engine α} (hx : Guarded cap x) : Guarded cap (Step.lift x : Step τ α) := by
  intro env ⟨t, r⟩ hcap
  simp only [Step.lift]
  rcases hx env r hcap with hsame | ⟨g, r', hlimit, hg⟩
  · exact .inl (by rw [hsame])
  · simp only [hlimit]
    exact .inr ⟨g, (t, r'), rfl, hg⟩

theorem part {whole : υ → τ} {u : υ} {x : Step υ α} (hx : Guarded cap x) :
    Guarded cap (Step.part whole u x) := by
  intro env ⟨t, r⟩ hcap
  simp only [Step.part]
  rcases hx env (u, r) hcap with hsame | ⟨g, ⟨u', r'⟩, hlimit, hg⟩
  · exact .inl (by rw [hsame])
  · simp only [hlimit]
    exact .inr ⟨g, (whole u', r'), rfl, hg⟩

/-- A step on a part of the state whose value is handed on. -/
theorem whole {whole : υ → τ} {u : υ} {x : Step υ α} (hx : Guarded cap x) :
    Guarded cap (do
      let (a, _) ← Step.part whole u x
      return a) := .bind (.part hx) fun _ => .pure _

theorem eval {t : τ} {x : Step τ α} (hx : Guarded cap x) : Guarded cap (Step.eval t x) := by
  intro env r hcap
  unfold Step.eval
  rcases hx env (t, r) hcap with hsame | ⟨g, ⟨t', r'⟩, hlimit, hg⟩
  · exact .inl (by rw [hsame])
  · simp only [hlimit]
    exact .inr ⟨g, r', rfl, hg⟩

/-! ### The engine -/

theorem materialize (rows : Collection α) (position : SourcePosition) :
    Guarded cap (Engine.materialize rows position) := by
  intro env s hcap
  rcases rows.capped_within hcap with hsame | hlimit
  · left
    have hrun (env : Environment) : Engine.materialize rows position env s =
        (Run.ofResult ((rows.capped env.materializationCap).locate position) >>= fun records => do
          Engine.count (·.materialized records.length)
          Engine.log .collectionMaterialized
            [("items", toString records.length), ("partitions", toString rows.numPartitions),
             ("position", position.text)]
          return records) env s := rfl
    rw [hrun, hrun]
    change ((Run.ofResult ((rows.capped (some cap)).locate position)) >>= _) _ s = _
    rw [hsame]
    cases (rows.capped env.materializationCap).locate position <;> rfl
  · right
    have hrun : Engine.materialize rows position (env.withCap (some cap)) s =
        (Run.ofResult ((rows.capped (some cap)).locate position) >>= _) (env.withCap (some cap)) s := rfl
    rw [hrun, hlimit]
    exact ⟨_, s, rfl, cap, some position, rfl⟩

/-- Guarded computations are closed under everything that opens no function bodies. -/
theorem inherited : Engine.Inherited fun _ x => Guarded cap x where
  pure a := .pure a
  bind hx hf := .bind hx hf
  raise e := .raise e
  locate hx position := hx.locate position
  environment hcap hf := .environment hcap hf
  materialize rows position := .materialize rows position
  count _ _ := .of_eq fun _ _ => rfl
  log _ _ := .of_eq fun _ _ => rfl
  consult _ := .of_eq fun _ _ => rfl

end Run.Guarded
end HybridQuery
