import HybridQuery.Proofs.Inherited

/-!
# Books on function bodies

A function body that was opened and not closed is owed. A state holds those of them that closing it would
close; the others are lost, for nothing is left to close them.

* `Books`: how many bodies are lost at least, and in clean books at most.
* `Accounts`: what a step leaves in the books. There is one rule for each way to combine steps; failures
  may lose bodies, successes do not.
* `Engine.Yields`, `Engine.Balanced`: the same for computations whose values hold bodies, or none.
-/

namespace HybridQuery

variable {σ τ υ α β γ : Type} {clean : Prop} {env : Environment} {lost : Int}

/-! ## Books -/

/-- Function bodies that were opened and not closed. -/
def RunRecord.owed (r : RunRecord) : Int := r.metrics.bodiesOpened - r.metrics.bodiesClosed

/-- Of the bodies that are owed, `held` are held and at least `lost` are not; exactly as many if the books
are clean. -/
structure Books (clean : Prop) (lost owed : Int) (held : Nat) : Prop where
  le : lost + held ≤ owed
  eq : clean → owed = lost + held

namespace Books

variable {owed : Int} {held held' k : Nat}

theorem start (clean : Prop) (owed : Int) : Books clean owed owed 0 := ⟨by omega, fun _ => by omega⟩

/-- In books that are not clean nothing else is said. -/
theorem of_le (h : lost + held ≤ owed) : Books False lost owed held := ⟨h, False.elim⟩

/-- Bodies may be dropped in books that are not clean. -/
theorem drop (h : Books clean lost owed held) (hle : held' ≤ held) (heq : clean → held' = held) :
    Books clean lost owed held' := by
  refine ⟨?_, fun hc => ?_⟩
  · have := h.le
    omega
  · rw [heq hc]
    exact h.eq hc

theorem congr (h : Books clean lost owed held) (heq : held' = held) : Books clean lost owed held' :=
  h.drop (Nat.le_of_eq heq) fun _ => heq

/-- What one part of a state holds is out of reach for a step on another part. -/
theorem shift (h : Books clean lost owed (held + k)) : Books clean (lost + k) owed held := by
  refine ⟨?_, fun hc => ?_⟩
  · have := h.le
    omega
  · have := h.eq hc
    omega

theorem unshift (h : Books clean (lost + k) owed held) : Books clean lost owed (held + k) := by
  refine ⟨?_, fun hc => ?_⟩
  · have := h.le
    omega
  · have := h.eq hc
    omega

end Books

/-! ## Computations -/

/-- A computation whose value holds bodies: those that it opened and did not close. It may lose bodies if it
fails. -/
def Engine.Yields (clean : Prop) (x : Engine β) (held : β → Nat) (P : β → Prop) : Prop :=
  ∀ env r, match x env r with
    | .ok b r' => P b ∧ Books clean r.owed r'.owed (held b)
    | .error _ r' => r.owed ≤ r'.owed

/-- A computation that closes the bodies that it opens. It may lose bodies if it fails. -/
def Engine.Balanced (clean : Prop) (x : Engine β) : Prop :=
  Engine.Yields clean x (fun _ => 0) fun _ => True

namespace Engine

variable {x : Engine α} {held : β → Nat} {P : β → Prop}

theorem Yields.pure {b : β} (hb : held b = 0) (hp : P b) : Yields clean (Pure.pure b) held P :=
  fun _ _ => ⟨hp, by rw [hb]; exact .start clean _⟩

theorem Yields.raise (e : EngineError) : Yields clean (Run.raise e) held P := fun _ _ => Int.le_refl _

theorem Yields.exhausted : Yields clean Run.exhausted held P := fun _ _ => Int.le_refl _

theorem Yields.bind {f : α → Engine β} (hx : Balanced clean x) (hf : ∀ a, Yields clean (f a) held P) :
    Yields clean (x >>= f) held P := by
  intro env r
  have hx := hx env r
  simp only [Bind.bind, ReaderT.bind, EStateM.bind]
  cases hrun : x env r with
  | error f r' =>
    rw [hrun] at hx
    exact hx
  | ok a r' =>
    rw [hrun] at hx
    obtain ⟨-, hbooks⟩ := hx
    have hf := hf a env r'
    dsimp only at hbooks hf ⊢
    cases hrun' : f a env r' with
    | error g r'' =>
      rw [hrun'] at hf
      have := hbooks.le
      dsimp only at hf ⊢
      omega
    | ok b r'' =>
      rw [hrun'] at hf
      obtain ⟨hp, hbooks'⟩ := hf
      refine ⟨hp, ?_, fun hc => ?_⟩
      · have := hbooks.le
        have := hbooks'.le
        omega
      · have := hbooks.eq hc
        have := hbooks'.eq hc
        omega

theorem Yields.locate {x : Engine β} (hx : Yields clean x held P) (position : SourcePosition) :
    Yields clean (x.locate position) held P := by
  intro env r
  have hx := hx env r
  simp only [Run.locate]
  cases hrun : x env r with
  | ok b r' => rwa [hrun] at hx
  | error f r' => rwa [hrun] at hx

/-- A computation that opens a body over what it has in hand. -/
theorem Yields.opened {x : Engine α} {inHand : α → Nat} {P : α → Prop} {Q : β → Prop} {g : α → β}
    (hx : x.Yields clean inHand P) (hq : ∀ a, P a → Q (g a))
    (hle : ∀ a, held (g a) ≤ inHand a + 1) (heq : clean → ∀ a, P a → held (g a) = inHand a + 1) :
    Yields clean (do
      let a ← x
      Engine.count Metrics.bodyOpened
      return g a) held Q := by
  intro env r
  have hx := hx env r
  simp only [Bind.bind, ReaderT.bind, EStateM.bind]
  cases hrun : x env r with
  | error f r' =>
    rw [hrun] at hx
    exact hx
  | ok a r' =>
    rw [hrun] at hx
    obtain ⟨hp, hbooks⟩ := hx
    have hopened : RunRecord.owed { r' with metrics := r'.metrics.bodyOpened } = r'.owed + 1 := by
      simp only [RunRecord.owed, Metrics.bodyOpened]
      omega
    refine ⟨hq a hp, ?_, fun hc => ?_⟩
    · have := hbooks.le
      have := hle a
      rw [hopened]
      omega
    · have := hbooks.eq hc
      have := heq hc a hp
      rw [hopened]
      omega

namespace Balanced

theorem pure (b : β) : Balanced clean (Pure.pure b : Engine β) :=
  Yields.pure rfl trivial

/-- A computation that fails or changes nothing that the books are kept on. -/
theorem of_owed (h : ∀ env r, match x env r with
    | .ok _ r' => r'.owed = r.owed
    | .error _ r' => r'.owed = r.owed) : Balanced clean x := by
  intro env r
  have h := h env r
  cases hrun : x env r with
  | ok a r' =>
    rw [hrun] at h
    dsimp only at h ⊢
    rw [h]
    exact ⟨trivial, .start clean _⟩
  | error f r' =>
    rw [hrun] at h
    exact Int.le_of_eq h.symm

theorem materialize (rows : Collection α) (position : SourcePosition) :
    Balanced clean (Engine.materialize rows position) := by
  refine of_owed fun env r => ?_
  have hrun : Engine.materialize rows position env r =
      (Run.ofResult ((rows.capped env.materializationCap).locate position) >>= fun records => do
        Engine.count (·.materialized records.length)
        Engine.log .collectionMaterialized
          [("items", toString records.length), ("partitions", toString rows.numPartitions),
           ("position", position.text)]
        return records) env r := rfl
  rw [hrun]
  cases (rows.capped env.materializationCap).locate position with
  | error e => rfl
  | ok records =>
    simp only [Run.ofResult, Engine.log, Engine.logRecord, Engine.count, Bind.bind, ReaderT.bind,
      EStateM.bind, Pure.pure, ReaderT.pure, EStateM.pure]
    split <;> rfl

/-- Closing what was opened is closed under everything that opens no function bodies. -/
theorem inherited : Engine.Inherited fun _ x => Balanced clean x where
  pure a := .pure a
  bind hx hf := .bind hx hf
  raise e := .raise e
  locate hx position := hx.locate position
  environment _ hf env r := hf env env r
  materialize rows position := .materialize rows position
  count hopened hclosed := .of_owed fun _ r => by
    simp only [Engine.count, RunRecord.owed, hopened, hclosed]
  log _ _ := .of_owed fun _ r => by
    simp only [Engine.log, Engine.logRecord, RunRecord.owed]
    split <;> rfl
  consult _ := .of_owed fun _ r => by
    simp only [Engine.consult, RunRecord.owed]
    split <;> rfl

end Balanced
end Engine

/-! ## Steps -/

/-- `x`, run from `s` on the record `r`, ends in `Q`, and no other bodies are lost then; or it fails, and
the books are not clean any more. -/
def Accounts (clean : Prop) (env : Environment) (x : Step σ β) (s : σ) (r : RunRecord) (lost : Int)
    (held : σ → Nat) (Q : β → σ → Prop) : Prop :=
  match x env (s, r) with
  | .ok b s' => Q b s'.1 ∧ Books clean lost s'.2.owed (held s'.1)
  | .error _ s' => lost + held s'.1 ≤ s'.2.owed

namespace Accounts

variable {x : Step σ β} {s t : σ} {r : RunRecord} {held : σ → Nat} {Q Q' : β → σ → Prop}

theorem mono (h : Accounts clean env x s r lost held Q) (hq : ∀ b s, Q b s → Q' b s) :
    Accounts clean env x s r lost held Q' := by
  unfold Accounts at h ⊢
  cases hx : x env (s, r) with
  | ok b s' => rw [hx] at h; exact ⟨hq _ _ h.1, h.2⟩
  | error f s' => rw [hx] at h; exact h

/-- A step whose books are kept in another way, and what follows it. -/
theorem bind_of {f : β → Step σ γ} {Q : γ → σ → Prop} {lost' : Int} {held' : σ → Nat}
    (h : Accounts clean env x s r lost' held' fun b s' => ∀ r', Books clean lost' r'.owed (held' s') →
      Accounts clean env (f b) s' r' lost held Q)
    (hle : ∀ s', lost + held s' ≤ lost' + held' s') :
    Accounts clean env (x >>= f) s r lost held Q := by
  unfold Accounts at h
  simp only [Accounts, Bind.bind, ReaderT.bind, EStateM.bind]
  cases hx : x env (s, r) with
  | ok b s' => rw [hx] at h; exact h.1 s'.2 h.2
  | error f s' => rw [hx] at h; exact Int.le_trans (hle s'.1) h

theorem bind {f : β → Step σ γ} {Q : γ → σ → Prop}
    (h : Accounts clean env x s r lost held fun b s' => ∀ r', Books clean lost r'.owed (held s') →
      Accounts clean env (f b) s' r' lost held Q) : Accounts clean env (x >>= f) s r lost held Q :=
  bind_of h fun _ => Int.le_refl _

/-! ### Steps that read and write -/

theorem read_bind {f : σ → Step σ γ} {Q : γ → σ → Prop} (h : Accounts clean env (f s) s r lost held Q) :
    Accounts clean env (Step.read >>= f) s r lost held Q := h

theorem write_bind {f : Unit → Step σ γ} {Q : γ → σ → Prop}
    (h : Accounts clean env (f ()) t r lost held Q) :
    Accounts clean env (Step.write t >>= f) s r lost held Q := h

theorem write {Q : Unit → σ → Prop} (hb : Books clean lost r.owed (held t)) (hq : Q () t) :
    Accounts clean env (Step.write t) s r lost held Q := ⟨hq, hb⟩

theorem write_pure {b : β} (hb : Books clean lost r.owed (held t)) (hq : Q b t) :
    Accounts clean env (Step.write t >>= fun _ => Pure.pure b) s r lost held Q := ⟨hq, hb⟩

theorem environment_bind {f : Environment → Step σ γ} {Q : γ → σ → Prop}
    (h : Accounts clean env (f env) s r lost held Q) :
    Accounts clean env (Run.environment >>= f) s r lost held Q := h

theorem locate (h : Accounts clean env x s r lost held Q) (position : SourcePosition) :
    Accounts clean env (x.locate position) s r lost held Q := by
  unfold Accounts at h
  simp only [Accounts, Run.locate]
  cases hx : x env (s, r) with
  | ok b s' => rw [hx] at h; exact h
  | error f s' => rw [hx] at h; exact h

/-- Bodies that are not held any more are closed. -/
theorem closeBodies {n : Nat} {Q : Unit → σ → Prop} (hb : Books clean lost r.owed (held s + n))
    (hq : Q () s) :
    Accounts clean env (Step.lift (Engine.count (·.addBodiesClosed n))) s r lost held Q := by
  have hclosed : RunRecord.owed { r with metrics := r.metrics.addBodiesClosed n } = r.owed - n := by
    simp only [RunRecord.owed, Metrics.addBodiesClosed]
    omega
  refine ⟨hq, ?_, fun hc => ?_⟩
  · have := hb.le
    simp only [hclosed]
    omega
  · have := hb.eq hc
    simp only [hclosed]
    omega

section
variable (hb : Books clean lost r.owed (held s))
include hb

theorem pure {b : β} (hq : Q b s) : Accounts clean env (Pure.pure b) s r lost held Q := ⟨hq, hb⟩

theorem raise {e : EngineError} : Accounts clean env (Run.raise e) s r lost held Q := hb.le

theorem exhausted : Accounts clean env Run.exhausted s r lost held Q := hb.le

theorem ofResult_bind {d : EngineResult α} {f : α → Step σ β}
    (h : ∀ a, Accounts clean env (f a) s r lost held Q) :
    Accounts clean env (Run.ofResult d >>= f) s r lost held Q := by
  cases d with
  | ok a => exact h a
  | error e => exact hb.le

/-- A computation, and what follows it with its value in hand. -/
theorem lift_bind {x : Engine α} {f : α → Step σ β} {inHand : α → Nat} {P : α → Prop}
    (hx : x.Yields clean inHand P) (h : ∀ a r', P a → Books clean lost r'.owed (held s + inHand a) →
      Accounts clean env (f a) s r' lost held Q) :
    Accounts clean env (Step.lift x >>= f) s r lost held Q := by
  have hx := hx env r
  simp only [Accounts, Step.lift, Bind.bind, ReaderT.bind, EStateM.bind]
  cases hrun : x env r with
  | error g r' =>
    rw [hrun] at hx
    exact Int.le_trans hb.le hx
  | ok a r' =>
    rw [hrun] at hx
    obtain ⟨hp, hbooks⟩ := hx
    refine h a r' hp ⟨?_, fun hc => ?_⟩
    · have := hb.le
      have := hbooks.le
      push_cast
      omega
    · have := hb.eq hc
      have := hbooks.eq hc
      push_cast
      omega

/-- A computation with nothing in hand after it. -/
theorem balanced_bind {x : Engine α} {f : α → Step σ β} (hx : x.Balanced clean)
    (h : ∀ a r', Books clean lost r'.owed (held s) → Accounts clean env (f a) s r' lost held Q) :
    Accounts clean env (Step.lift x >>= f) s r lost held Q :=
  lift_bind hb hx fun a r' _ => h a r'

theorem lift {x : Engine β} (hx : x.Balanced clean) (hq : ∀ b, Q b s) :
    Accounts clean env (Step.lift x) s r lost held Q := by
  have h : Accounts clean env (Step.lift x >>= Pure.pure) s r lost held Q :=
    .balanced_bind hb hx fun b _ hb => .pure hb (hq b)
  rwa [bind_pure] at h

end

/-! ### Steps on parts -/

/-- A step on a part of the state; what the rest of it holds is out of its reach. -/
theorem part {whole : υ → τ} {u : υ} {t : τ} {x : Step υ β} {held : τ → Nat} {heldPart : υ → Nat}
    {k : Nat} {Q : β × υ → τ → Prop} (hw : ∀ u, held (whole u) = heldPart u + k)
    (ht : held t = heldPart u + k) (hb : Books clean lost r.owed (held t))
    (h : Books clean (lost + k) r.owed (heldPart u) →
      Accounts clean env x u r (lost + k) heldPart fun b u' => Q (b, u') (whole u')) :
    Accounts clean env (Step.part whole u x) t r lost held Q := by
  have h := h (hb.congr ht.symm).shift
  unfold Accounts at h
  simp only [Accounts, Step.part]
  cases hx : x env (u, r) with
  | ok b s' =>
    rw [hx] at h
    exact ⟨h.1, by rw [hw]; exact h.2.unshift⟩
  | error f s' =>
    rw [hx] at h
    dsimp only at h ⊢
    rw [hw]
    omega

/-- A step on a part of the state whose value is handed on. -/
theorem whole {whole : υ → τ} {u : υ} {t : τ} {x : Step υ β} {held : τ → Nat} {heldPart : υ → Nat}
    {k : Nat} {Q : β → τ → Prop} (hw : ∀ u, held (whole u) = heldPart u + k)
    (ht : held t = heldPart u + k) (hb : Books clean lost r.owed (held t))
    (h : Books clean (lost + k) r.owed (heldPart u) →
      Accounts clean env x u r (lost + k) heldPart fun b u' => Q b (whole u')) :
    Accounts clean env (do
      let (b, _) ← Step.part whole u x
      return b) t r lost held Q :=
  .bind (.part hw ht hb fun hb => (h hb).mono fun _ _ hq _ hb => .pure hb hq)

theorem onFailure {cleanUp : Step σ Unit} (h : Accounts clean env x s r lost held Q)
    (hclean : ∀ s' r', Books False lost r'.owed (held s') →
      Accounts False env cleanUp s' r' lost held fun _ _ => True) :
    Accounts clean env (x.onFailure cleanUp) s r lost held Q := by
  unfold Accounts at h
  simp only [Accounts, Run.onFailure]
  cases hx : x env (s, r) with
  | ok b s' => rw [hx] at h; exact h
  | error f s' =>
    rw [hx] at h
    have hleft := hclean s'.1 s'.2 (.of_le h)
    unfold Accounts at hleft
    dsimp only
    cases hc : cleanUp env s' with
    | ok _ s'' => rw [hc] at hleft; exact hleft.2.le
    | error g s'' => rw [hc] at hleft; exact hleft

end Accounts

/-- A step from a state that holds nothing, of whose end only the value is left. -/
theorem Engine.Yields.eval {t : τ} {x : Step τ β} {held : τ → Nat} {inHand : β → Nat} {P : β → Prop}
    (ht : held t = 0) (h : ∀ env r, Books clean r.owed r.owed (held t) →
      Accounts clean env x t r r.owed held fun b s' =>
        P b ∧ inHand b ≤ held s' ∧ (clean → held s' = inHand b)) :
    (Step.eval t x).Yields clean inHand P := by
  intro env r
  have h := h env r (by rw [ht]; exact .start clean _)
  unfold Accounts at h
  simp only [Step.eval]
  cases hx : x env (t, r) with
  | ok b s' =>
    rw [hx] at h
    obtain ⟨⟨hp, hle, heq⟩, hbooks⟩ := h
    exact ⟨hp, hbooks.drop hle fun hc => (heq hc).symm⟩
  | error f s' =>
    rw [hx] at h
    dsimp only at h ⊢
    omega

end HybridQuery
