import HybridQuery.Proofs.Blame.Evaluations
import HybridQuery.Proofs.Cursors.Keeping

/-!
# Cursors whose results have a property

If driving the nodes of a kind gives results that have a property, then so does every cursor over them: the
result that is pending, those that were pulled to the host and those of the distributed form that is kept
have it too, whatever was asked of the cursor before and however that ended.

* `Engine.GivesOnly`, `Upholds`: what a computation gives has a property, and so does what a step gives, which keeps
  the states that it needs for that.
* `Cursor.Holds`: what a cursor has at hand.
* `Rules.Upholding.openIn`, `Rules.Upholding.next`, `Rules.Upholding.collection`: the protocol upholds a
  property of results if driving its nodes does.
-/

namespace HybridQuery

variable {σ τ υ α β γ : Type} {env : Environment}

/-! ## Results that have a property -/

theorem forall_mem_some {T : α → Prop} {a : α} : (∀ b ∈ some a, T b) ↔ T a := by simp

/-- Whatever a computation gives has a property. -/
abbrev Engine.GivesOnly (env : Environment) (T : α → Prop) (x : Engine α) : Prop :=
  x.Meets env T fun _ => True

/-- What comes last decides. -/
theorem Engine.Meets.last {T : β → Prop} {x : Engine α} {f : α → Engine β}
    (h : ∀ a, (f a).GivesOnly env T) : (x >>= f).GivesOnly env T := .bind_of .trivial fun a _ => h a

theorem Engine.Meets.of_run {T : α → Prop} {E : Failure → Prop} {x : Engine α} (h : x.Meets env T E)
    {record record' : RunRecord} {a : α} (hx : x env record = .ok a record') : T a := by
  have := h record
  rwa [hx] at this

theorem Engine.materialize_givesOnly (rows : Collection α) (position : SourcePosition) :
    (materialize rows position).GivesOnly env fun l => ∀ a ∈ l, a ∈ rows.records :=
  (materialize_blames rows (Set.mem_univ position)).weaken fun _ _ => trivial

/-- Run from a state of `I`, `x` gives only results of `T`, and leaves a state of `I`, however it ends. -/
def Upholds (env : Environment) (x : Step σ β) (I : σ → Prop) (T : β → Prop) : Prop :=
  ∀ s, I s → Leaves env x s (fun b s' => T b ∧ I s') I

theorem Keeps.upholds {x : Step σ β} {I : σ → Prop} (h : Keeps env x I) : Upholds env x I fun _ => True :=
  fun s hs => (h s hs).mono (fun _ _ hs => ⟨True.intro, hs⟩) fun _ => id

namespace Upholds

variable {x : Step σ β} {I : σ → Prop} {T : β → Prop}

theorem keeps (h : Upholds env x I T) : Keeps env x I :=
  fun s hs => (h s hs).mono (fun _ _ h => h.2) fun _ => id

theorem of_run (h : Upholds env x I T) {s : σ} (hs : I s) {record : RunRecord} {b : β} {s' : σ × RunRecord}
    (hx : x env (s, record) = .ok b s') : T b := by
  have := h s hs record
  rw [hx] at this
  exact this.1

theorem bind {f : β → Step σ γ} {U : γ → Prop} (hx : Upholds env x I T)
    (hf : ∀ b, T b → Upholds env (f b) I U) : Upholds env (x >>= f) I U :=
  fun s hs => .bind ((hx s hs).mono (fun b s' h => hf b h.1 s' h.2) fun _ => id)

theorem pure {b : β} (h : T b) : Upholds env (Pure.pure b : Step σ β) I T := fun _ hs => .pure ⟨h, hs⟩

theorem exhausted : Upholds env (Run.exhausted : Step σ β) I T := fun _ hs => .exhausted hs

theorem lift {x : Engine β} (h : x.GivesOnly env T) : Upholds env (Step.lift x) I T := by
  intro s hs r
  have := h r
  simp only [Step.lift]
  cases hx : x env r with
  | ok b r' => rw [hx] at this; exact ⟨this, hs⟩
  | error f r' => exact hs

theorem ofResult {d : EngineResult β} (h : ∀ b, d = .ok b → T b) : Upholds env (Run.ofResult d) I T := by
  cases d with
  | ok b => exact .pure (h b rfl)
  | error e => exact fun _ hs => .raise hs

theorem locate {position : SourcePosition} (h : Upholds env x I T) :
    Upholds env (x.locate position) I T := fun s hs => (h s hs).locate

/-- A step on a part of the state, and what follows it. -/
theorem part {whole : υ → τ} {u : υ} {t : τ} {x : Step υ β} {S : υ → Prop} {J : τ → Prop}
    {Q : γ → τ → Prop} {k : β × υ → Step τ γ} (hx : Upholds env x S T) (hu : S u)
    (hw : ∀ u, S u → J (whole u)) (hk : ∀ b u, T b → S u → Leaves env (k (b, u)) (whole u) Q J) :
    Leaves env (Step.part whole u x >>= k) t Q J :=
  .bind (.part ((hx u hu).mono (fun b u h => hk b u h.1 h.2) hw))

/-- A step on a part of the state whose result is handed on. -/
theorem whole {whole : υ → τ} {u : υ} {t : τ} {x : Step υ β} {S : υ → Prop} {J : τ → Prop}
    (hx : Upholds env x S T) (hu : S u) (hw : ∀ u, S u → J (whole u)) :
    Leaves env (do
      let (b, _) ← Step.part whole u x
      return b) t (fun b s => T b ∧ J s) J :=
  hx.part hu hw fun _ u hb hu => .pure ⟨hb, hw u hu⟩

end Upholds

/-! ## What cursors have at hand -/

/-- A result that is handed out was pending, and no other one is pending then. -/
theorem Lookahead.mem_pending_of_take {l l' : Lookahead α} {iterator : String} {a : α}
    (h : l.take iterator = (.ok a, l')) : a ∈ l.pending ∧ l'.pending = none := by
  unfold take at h
  split at h
  · cases h
  · split at h
    · next result hpending =>
      cases h
      exact ⟨hpending, rfl⟩
    · cases h

/-- Every result that a cursor has at hand is one of `T`, and its node is one of `S`. -/
structure Cursor.Holds {ν : Type} (S : ν → Prop) (T : α → Prop) (c : Cursor ν α) : Prop where
  node : S c.node
  pending : ∀ a ∈ c.lookahead.pending, T a
  materialized : ∀ l ∈ c.materialized, ∀ a ∈ l, T a
  memo : ∀ kept ∈ c.memo, ∀ a ∈ kept.2.records, T a

namespace Cursor.Holds

variable {ν : Type} {S : ν → Prop} {T : α → Prop}

theorem idle {mode : Mode} {position : SourcePosition} {n : ν} (h : S n) :
    (Cursor.idle mode position n).Holds S T := ⟨h, nofun, nofun, nofun⟩

variable {c : Cursor ν α}

theorem withNode (hc : c.Holds S T) {n : ν} (h : S n) : Cursor.Holds S T { c with node := n } :=
  { hc with node := h }

theorem withPending (hc : c.Holds S T) {l : Lookahead α} (h : ∀ a ∈ l.pending, T a) :
    Cursor.Holds S T { c with lookahead := l } := { hc with pending := h }

theorem withMaterialized (hc : c.Holds S T) {l : List α} (h : ∀ a ∈ l, T a) :
    Cursor.Holds S T { c with materialized := some l } :=
  { hc with materialized := forall_mem_some.mpr h }

end Cursor.Holds

/-! ## The protocol -/

namespace Rules

variable {ν : Type} [CursorNode ν]

/-- Driving nodes of `S` gives only results of `T`, and keeps the nodes in `S`. -/
structure Upholding (r : Rules ν α) (S : ν → Prop) (T : α → Prop) (env : Environment) : Prop where
  closed : ∀ n, S n → S (CursorNode.closed n)
  start : ∀ context, Keeps env (r.start context) S
  pull : Upholds env r.pull S fun next => ∀ a ∈ next, T a
  collect : ∀ mode context, Upholds env (r.collect mode context) S fun rows => ∀ a ∈ rows.records, T a

namespace Upholding

variable {r : Rules ν α} {S : ν → Prop} {T : α → Prop}

omit [CursorNode ν] in
theorem drive {x : Step ν β} {U : β → Prop} (hx : Upholds env x S U) :
    Upholds env (Cursor.drive x : Step (Cursor ν α) β) (Cursor.Holds S T) U := fun _ hc =>
  .bind (.read (hx.whole hc.node fun _ hn => hc.withNode hn))

variable (h : r.Upholding S T env)
include h

theorem closedCursor {c : Cursor ν α} (hc : c.Holds S T) : c.closed.Holds S T := .idle (h.closed _ hc.node)

theorem release : Keeps env (Cursor.release : Step (Cursor ν α) Unit) (Cursor.Holds S T) := fun _ hc =>
  leaves_release (h.closedCursor hc) (h.closedCursor hc)

theorem advance : Upholds env r.advance (Cursor.Holds S T) fun next => ∀ a ∈ next, T a := by
  intro c hc
  refine .bind (.read ?_)
  cases hm : c.materialized with
  | none => exact (drive h.pull).locate c hc
  | some l =>
    cases l with
    | nil => exact .pure ⟨nofun, hc⟩
    | cons a rest =>
      obtain ⟨ha, hrest⟩ := List.forall_mem_cons.mp (hc.materialized _ hm)
      exact .bind (.write (.pure ⟨forall_mem_some.mpr ha, hc.withMaterialized hrest⟩))

theorem collection (context : Context) :
    Upholds env (r.collection context) (Cursor.Holds S T) fun rows => ∀ a ∈ rows.records, T a := by
  intro c hc
  refine .bind (.read ?_)
  cases c.mode.isParallel with
  | false => exact .locate (.raise hc)
  | true =>
    simp only [Bool.not_true, Bool.false_eq_true, ↓reduceIte]
    cases hkept : kept? c context with
    | some rows =>
      obtain ⟨handle, hmemo, _⟩ := kept?_eq_some hkept
      exact .pure ⟨hc.memo _ hmemo, hc⟩
    | none =>
      refine .bind (((drive (h.collect c.mode context)).locate c hc).mono (fun rows c hrows => ?_)
        fun _ => id)
      refine .bind (.read (.bind (.write (.pure ⟨hrows.1, { hrows.2 with memo := ?_ }⟩))))
      intro kept hkept
      obtain ⟨handle, _, rfl⟩ := Option.mem_map.mp hkept
      exact hrows.1

theorem prepare (context : Context) : Keeps env (r.prepare context) (Cursor.Holds S T) := by
  intro c hc
  have hpulled : Leaves env (do
      let rows ← r.collection context
      let records ← Step.lift (Engine.materialize rows c.position)
      let c ← Step.read
      Step.write { c with materialized := some records }) c
      (fun _ => Cursor.Holds S T) (Cursor.Holds S T) := by
    refine .bind ((h.collection context c hc).mono (fun rows c' hrows => ?_) fun _ h => h)
    have hrecords : (Engine.materialize rows c.position).GivesOnly env fun l => ∀ a ∈ l, T a :=
      (Engine.materialize_givesOnly rows c.position).mono fun l hl a ha => hrows.1 a (hl a ha)
    refine .bind ((Upholds.lift hrecords c' hrows.2).mono (fun records c' hrecords => ?_) fun _ h => h)
    exact .bind (.read (.write (hrecords.2.withMaterialized hrecords.1)))
  refine .bind (.read ?_)
  cases c.mode with
  | unset => exact .locate (.raise hc)
  | host => exact ((drive (h.start context).upholds).locate.keeps c hc)
  | rows => exact hpulled
  | columns => exact hpulled

theorem begin (context : Context) : Keeps env (r.begin context) (Cursor.Holds S T) := by
  refine .bind (h.prepare context) fun _ => ?_
  refine fun c hc => .bind ((h.advance c hc).mono (fun first c hfirst => ?_) fun _ => id)
  exact .bind (.read (.write (hfirst.2.withPending hfirst.1)))

theorem openIn (context : Context) : Keeps env (r.openIn context) (Cursor.Holds S T) := by
  have hbegin : Keeps env (do
      Step.lift (Engine.count Metrics.iteratorOpened)
      (r.begin context).onFailure Cursor.release) (Cursor.Holds S T) :=
    .bind .lift fun _ c hc => .onFailure ((h.begin context c hc).mono (fun _ _ => id) h.release)
  intro c hc
  refine .bind (.read ?_)
  cases c.isOpen with
  | true => exact h.release.bind (fun _ => hbegin) c hc
  | false => exact hbegin c hc

theorem next : Upholds env r.next (Cursor.Holds S T) T := by
  intro c hc
  refine .bind (.read ?_)
  rcases htake : c.lookahead.take c.name with ⟨e | a, l⟩
  · exact .raise hc
  · obtain ⟨ha, hl⟩ := Lookahead.mem_pending_of_take htake
    refine .bind (.write (.bind ((h.advance _ (hc.withPending (l := l) (hl ▸ nofun))).mono
      (fun following c' hnext => ?_) fun _ => id)))
    exact .bind (.read (.bind (.write (.pure ⟨hc.pending a ha, hnext.2.withPending hnext.1⟩))))

theorem next? : Upholds env r.next? (Cursor.Holds S T) fun next => ∀ a ∈ next, T a := by
  intro c hc
  refine .bind (.read ?_)
  cases c.hasNext with
  | true => exact h.next.bind (fun a ha => .pure (forall_mem_some.mpr ha)) c hc
  | false => exact .pure ⟨nofun, hc⟩

end Upholding
end Rules
end HybridQuery
