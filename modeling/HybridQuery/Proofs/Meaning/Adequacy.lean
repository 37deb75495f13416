import HybridQuery.Proofs.Meaning.Clauses
import HybridQuery.Proofs.Meaning.Nodes

/-!
# Evaluation settles on its meaning

Evaluators of a bounded depth follow the meaning of a bounded depth in two ways. An evaluator gives no
result that the meaning of its own depth does not give, and what the meaning of some depth gives is
given by every evaluator that is deep enough.

* `Memory.ofDepth`: what cursors may keep between calls, by the meaning of a depth.
* `Evaluator.follows_ofDepth`: evaluators of growing depth follow the meaning of the depth they start
  from. Both ways are cases of it.
* `Settles`: a computation of growing depth comes to a result that stays. `settles_iff` takes the
  evaluators out of it.
-/

namespace HybridQuery

open Filter

variable {env : Environment} {α : Type}

/-! ## What cursors keep -/

namespace Memory

variable {marks : Nat → List Bindings} {L : Prop}

/-- What cursors below nodes may keep if the nodes are over at most `depth` levels of nodes. -/
def belowDepth (marks : Nat → List Bindings) (L : Prop) (env : Environment) : Nat → Memory
  | 0 => ⟨marks, fun _ => ⟨fun _ _ _ => True, fun _ _ _ _ _ _ => True⟩⟩
  | depth + 1 => (belowDepth marks L env depth).over L env (NodeMeaning.ofDepth depth)

/-- What cursors may keep by the meaning of everything that is at most `depth` nodes deep. -/
def ofDepth (marks : Nat → List Bindings) (L : Prop) (env : Environment) (depth : Nat) : Memory :=
  (belowDepth marks L env depth).over L env (NodeMeaning.ofDepth depth)

theorem belowDepth_marks (depth : Nat) : (belowDepth marks L env depth).marks = marks := by
  induction depth with
  | zero => rfl
  | succ depth ih => exact ih

theorem ofDepth_marks (depth : Nat) : (ofDepth marks L env depth).marks = marks :=
  belowDepth_marks depth

end Memory

/-! ## Evaluators of bounded depth -/

namespace Evaluator

variable {marks : Nat → List Bindings} {K : Memory} {F : Filter ℕ} {L : Prop}

theorem Follows.above {evs : ℕ → Evaluator} {M : Meaning} (h : Follows K F L env evs M)
    {limits : ℕ → Nat} (hl : ∀ n, ∀ᶠ j in F, L ∨ n < limits j) :
    FollowsNodes K F L env (fun j => Evaluator.above (fun _ => evs j) (limits j))
      (NodeMeaning.above M) where
  items operation position _ hc := h.startNode hc operation position
  rows mode operation position _ hc := h.collectNode hc mode operation position
  frame operation position _ hc := h.frameNode hc operation position
  clause operation position before _ hc := h.startClause hc operation position before
  clauseRows _ operation position before _ hc := h.collectClause hc operation position before
  rows_steady mode operation _ hc := h.operationRows_steady hc mode operation
  frame_steady operation _ hc := h.operationFrame_steady hc operation
  clauseRows_steady operation position before _ hc :=
    h.clauseCollection_steady hc operation position before
  limit := hl

/-- Evaluators that give up follow nodes that do, unless only the meaning may give up. -/
theorem followsNodes_giveUp {evs : ℕ → Evaluator} (hl : ∀ n, ∀ᶠ j in F, L ∨ n < (evs j).limit)
    (hcut : ∀ᶠ j in F, L → evs j = giveUp) : FollowsNodes K F L env evs NodeMeaning.giveUp := by
  have hfails {σ β : Type} {x : Step σ β} {s : σ} (hx : L → x = Run.exhausted) :
      Fails L env x s .exhausted := by
    by_cases hc : L
    · rw [hx hc]; exact .exhausted
    · exact .inl ⟨hc, rfl⟩
  have hanswers {β : Type} {x : Engine β} (hx : L → x = Run.exhausted) :
      Answers L env x (.error .exhausted) := by
    by_cases hc : L
    · rw [hx hc]; exact .inr fun _ => .inl rfl
    · exact .inl ⟨rfl, hc⟩
  refine ⟨?items, ?rows, ?frame, ?clause, ?clauseRows, fun _ _ _ _ _ => rfl, fun _ _ _ _ => rfl,
    fun _ _ _ _ _ _ => rfl, hl⟩ <;> intros <;> refine hcut.mono fun j hj n hn => ?_
  case items | clause => exact .inl ⟨_, rfl, hfails fun hc => by rw [hj hc]; rfl⟩
  case rows | clauseRows => exact hfails fun hc => by rw [hj hc]; rfl
  case frame => exact hanswers fun hc => by rw [hj hc]; rfl

/-- Evaluators that are deep enough follow nodes of any depth, if none gives up where only the meaning
may. -/
theorem followsNodes_ofDepth (hdeep : ∀ n, ∀ᶠ j in F, L ∨ n ≤ j) (hcut : ∀ᶠ j in F, L → j = 0)
    (depth : Nat) :
    FollowsNodes (.belowDepth marks L env depth) F L env (fun j => ofDepth (depth + j))
      (NodeMeaning.ofDepth depth) := by
  have hlimit (k n : Nat) : ∀ᶠ j in F, L ∨ n < (ofDepth (k + j)).limit := by
    filter_upwards [hdeep (n + 2)] with j hj
    refine hj.imp_right fun hj => ?_
    obtain ⟨d, hd⟩ : ∃ d, k + j = d + 1 := ⟨k + j - 1, by omega⟩
    rw [hd]
    change n < d
    omega
  induction depth with
  | zero =>
    refine followsNodes_giveUp (hlimit 0) ?_
    filter_upwards [hcut] with j hj hc
    rw [hj hc]
    rfl
  | succ depth ih =>
    have := ih.driven.above fun n => show ∀ᶠ j in F, L ∨ n < depth + j by
      filter_upwards [hdeep (n + 1)] with j hj
      exact hj.imp_right fun hj => by omega
    refine cast (congrArg (FollowsNodes _ F L env · _) (funext fun j => ?_)) this
    rw [Nat.add_right_comm]
    rfl

/-- Evaluators of growing depth follow the meaning of the depth they start from. -/
theorem follows_ofDepth (hdeep : ∀ n, ∀ᶠ j in F, L ∨ n ≤ j) (hcut : ∀ᶠ j in F, L → j = 0)
    (depth : Nat) : Follows (.ofDepth marks L env depth) F L env (fun j => ofDepth (depth + j))
      (Meaning.ofDepth depth) :=
  (followsNodes_ofDepth hdeep hcut depth).driven

/-- **Soundness.** An evaluator follows the meaning of its own depth, as far as it does not give up. -/
theorem follows_within (marks : Nat → List Bindings) (depth : Nat) :
    Follows (.ofDepth marks True env depth) (pure 0) True env (fun j => ofDepth (depth + j))
      (Meaning.ofDepth depth) :=
  follows_ofDepth (fun _ => .of_forall fun _ => .inl trivial) (by simp) depth

/-- **Completeness.** Deep evaluators follow the meaning of every depth, as far as it does not give
up. -/
theorem follows_eventually (marks : Nat → List Bindings) (depth : Nat) :
    Follows (.ofDepth marks False env depth) atTop False env (fun j => ofDepth (depth + j))
      (Meaning.ofDepth depth) :=
  follows_ofDepth (fun n => (eventually_ge_atTop n).mono fun _ => .inr)
    (.of_forall fun _ => False.elim) depth

end Evaluator

/-! ## Results that stay -/

/-- Whatever was recorded before, a computation ends in a result. -/
def Engine.Ends (env : Environment) (x : Engine α) (d : EngineResult α) : Prop :=
  ∀ r, ∃ r', x env r =
    match d with
    | .ok a => .ok a r'
    | .error e => .error (.raised e) r'

/-- From some depth on a computation ends in a result. -/
def Settles (env : Environment) (x : ℕ → Engine α) (d : EngineResult α) : Prop :=
  ∃ depth, ∀ deeper, depth ≤ deeper → (x deeper).Ends env d

/-- A computation of growing depth, and what it means at each depth. -/
structure Meant (env : Environment) (x y : ℕ → Engine α) : Prop where
  within : ∀ depth, Tends (pure 0) True env (fun j => x (depth + j)) (y depth)
  eventually : ∀ depth, Tends atTop False env (fun j => x (depth + j)) (y depth)

namespace Meant

variable {x y : ℕ → Engine α} {d : EngineResult α}

theorem of_marked (marks : Nat → List Bindings)
    (h : ∀ {K : Memory} {F : Filter ℕ} {L : Prop} {depth : Nat}, K.marks = marks →
      Evaluator.Follows K F L env (fun j => Evaluator.ofDepth (depth + j)) (Meaning.ofDepth depth) →
        Tends F L env (fun j => x (depth + j)) (y depth)) : Meant env x y :=
  ⟨fun depth => h (Memory.ofDepth_marks depth) (Evaluator.follows_within marks depth),
    fun depth => h (Memory.ofDepth_marks depth) (Evaluator.follows_eventually marks depth)⟩

theorem of_follows
    (h : ∀ {K : Memory} {F : Filter ℕ} {L : Prop} {depth : Nat},
      Evaluator.Follows K F L env (fun j => Evaluator.ofDepth (depth + j)) (Meaning.ofDepth depth) →
        Tends F L env (fun j => x (depth + j)) (y depth)) : Meant env x y :=
  of_marked (fun _ => []) fun _ => h

/-- What a computation ends in at a depth it means there. -/
theorem result_of_ends (h : Meant env x y) {depth : Nat} (hd : (x depth).Ends env d) :
    (y depth).result env = d.raised := by
  have hw := (Tends.pure_iff.mp (h.within depth)).2
  have hw := (hw.resolve_left (by simp)) .empty
  obtain ⟨r', hr⟩ := hd .empty
  simp only [Nat.add_zero] at hw
  rw [hr] at hw
  cases d with
  | ok a => exact hw
  | error e => exact hw.resolve_right fun h => nomatch h.2

/-- What a computation means at some depth it settles on. -/
theorem settles_of_result (h : Meant env x y) (depth : Nat)
    (hd : (y depth).result env = d.raised) : Settles env x d := by
  obtain ⟨n, hn⟩ := eventually_atTop.mp (h.eventually depth).2
  refine ⟨depth + n, fun deeper hdeep r => ?_⟩
  obtain ⟨j, rfl⟩ := Nat.exists_eq_add_of_le (show depth ≤ deeper by omega)
  have hx : Answers False env (x (depth + j)) _ := hn j (by omega)
  rw [hd] at hx
  have hx := (hx.resolve_left fun h => by cases d <;> simp [EngineResult.raised, Except.mapError] at h) r
  cases hr : x (depth + j) env r with
  | ok a r' =>
    rw [hr] at hx
    cases d <;> cases hx
    exact ⟨r', rfl⟩
  | error f r' =>
    rw [hr] at hx
    have hx := hx.resolve_right fun h => h.1
    cases d <;> cases hx
    exact ⟨r', rfl⟩

/-- **Adequacy.** A computation settles on what it means at some depth. -/
theorem settles_iff (h : Meant env x y) :
    Settles env x d ↔ ∃ depth, (y depth).result env = d.raised :=
  ⟨fun ⟨depth, hd⟩ => ⟨depth, h.result_of_ends (hd depth le_rfl)⟩,
    fun ⟨_, hd⟩ => h.settles_of_result _ hd⟩

/-- A computation settles on what it means at all large depths. -/
theorem settles_iff_eventually (h : Meant env x y) :
    Settles env x d ↔ ∀ᶠ depth in atTop, (y depth).result env = d.raised := by
  refine ⟨fun ⟨depth, hd⟩ => eventually_atTop.mpr ⟨depth, fun deeper hdeep => ?_⟩, fun hd => ?_⟩
  · exact h.result_of_ends (hd deeper hdeep)
  · obtain ⟨depth, hd⟩ := hd.exists
    exact h.settles_of_result _ hd

/-- A computation that does not settle is exhausted at every depth. -/
theorem result_of_unsettled (h : Meant env x y) (hx : ∀ d, ¬ Settles env x d) (depth : Nat) :
    (y depth).result env = .error .exhausted := by
  cases hd : (y depth).result env with
  | ok a => exact absurd (h.settles_of_result (d := .ok a) depth hd) (hx _)
  | error f =>
    cases f with
    | exhausted => rfl
    | raised e => exact absurd (h.settles_of_result (d := .error e) depth hd) (hx _)

end Meant

/-- A computation settles on one result at most. -/
theorem Settles.unique {x : ℕ → Engine α} {d d' : EngineResult α} (h : Settles env x d)
    (h' : Settles env x d') : d = d' := by
  obtain ⟨⟨n, hn⟩, ⟨m, hm⟩⟩ := And.intro h h'
  obtain ⟨_, hr⟩ := hn (max n m) (le_max_left n m) .empty
  obtain ⟨_, hr'⟩ := hm (max n m) (le_max_right n m) .empty
  rw [hr] at hr'
  cases d <;> cases d' <;> cases hr' <;> rfl

/-- What a computation of growing depth means at two depths is the same, unless it is exhausted. -/
theorem Meant.consistent {x y : ℕ → Engine α} (h : Meant env x y) {depth other : Nat} {a : α}
    (ha : (y depth).result env = .ok a) :
    (y other).result env = .error .exhausted ∨ (y other).result env = .ok a := by
  have hsettles : Settles env x (.ok a) := h.settles_of_result depth ha
  cases hother : (y other).result env with
  | ok b =>
    have hb : Settles env x (.ok b) := h.settles_of_result other hother
    cases hsettles.unique hb
    exact .inr rfl
  | error f =>
    cases f with
    | exhausted => exact .inl rfl
    | raised e => exact nomatch hsettles.unique (h.settles_of_result (d := .error e) other hother)

/-! ### What evaluators compute -/

namespace Context.Known

variable {marks : Nat → List Bindings} {context : Context} (hc : context.Known marks)
include hc

theorem meant_evaluate (p : Plan) :
    Meant env (fun depth => (Evaluator.ofDepth depth).plans.evaluate p context)
      fun depth => (Meaning.ofDepth depth).plans.evaluate p context :=
  .of_marked marks fun hK h => h.plans.evaluate p context (hK.symm ▸ hc)

theorem meant_rows (p : Plan) :
    Meant env (fun depth => (Evaluator.ofDepth depth).plans.rows p context)
      fun depth => (Meaning.ofDepth depth).rows p context :=
  .of_marked marks fun hK h => h.plans.rows p context (hK.symm ▸ hc)

theorem meant_planFrame (p : Plan) :
    Meant env (fun depth => (Evaluator.ofDepth depth).plans.planFrame p context)
      fun depth => (Meaning.ofDepth depth).frame p context :=
  .of_marked marks fun hK h => h.plans.planFrame p context (hK.symm ▸ hc)

/-- The tuples that are pulled from a chain of clauses. -/
theorem meant_gatherAll (pipeline : Pipeline) :
    Meant env (fun depth => Step.eval pipeline.feed
        ((Evaluator.ofDepth depth).gatherAll (fun tuple => pure tuple) context))
      fun depth => Engine.given fun env => ((Meaning.ofDepth depth).feed env context pipeline).result := by
  refine .of_marked marks fun {K} _ _ _ hK h => .given ?_
  have hc : context.Known K.marks := hK.symm ▸ hc
  filter_upwards [Evaluator.gives_gatherAll pipeline h hc fun tuple => Tends.pure tuple] with j hj
  have := (hj _ pipeline.shapes_feed).eval
  have hone (t : Trace Tuple) : (t.bind fun tuple => .one tuple) = t := by
    induction t with
    | done | failed => rfl
    | item a t ih => rw [Trace.item_bind, ih]; rfl
  rwa [Meaning.gathered, show (fun tuple => Trace.attempt (Engine.result (pure tuple) env) .one) =
    fun tuple => .one tuple from rfl, hone] at this

/-- The distributed tuples of a chain of clauses. -/
theorem meant_feedRows (pipeline : Pipeline) :
    Meant env (fun depth => Step.eval pipeline.feed ((Evaluator.ofDepth depth).feedRows context))
      fun depth => (Meaning.ofDepth depth).feedRows context pipeline := by
  refine .of_marked marks fun {K} _ _ _ hK h => ?_
  have hc : context.Known K.marks := hK.symm ▸ hc
  refine ⟨h.feedRows pipeline context hc, ?_⟩
  filter_upwards [h.feed pipeline context hc] with j hj
  exact (hj.rows _ pipeline.shapes_feed).eval

end Context.Known

section
variable (p : Plan) (pipeline : Pipeline) {context : Context} (hc : context.handle = none)
include hc

theorem meant_evaluate : Meant env (fun depth => (Evaluator.ofDepth depth).plans.evaluate p context)
    fun depth => (Meaning.ofDepth depth).plans.evaluate p context :=
  (show context.Known fun _ => [] from .of_unmarked hc).meant_evaluate p

theorem meant_rows : Meant env (fun depth => (Evaluator.ofDepth depth).plans.rows p context)
    fun depth => (Meaning.ofDepth depth).rows p context :=
  (show context.Known fun _ => [] from .of_unmarked hc).meant_rows p

theorem meant_planFrame : Meant env (fun depth => (Evaluator.ofDepth depth).plans.planFrame p context)
    fun depth => (Meaning.ofDepth depth).frame p context :=
  (show context.Known fun _ => [] from .of_unmarked hc).meant_planFrame p

theorem meant_gatherAll :
    Meant env (fun depth => Step.eval pipeline.feed
        ((Evaluator.ofDepth depth).gatherAll (fun tuple => pure tuple) context))
      fun depth => Engine.given fun env => ((Meaning.ofDepth depth).feed env context pipeline).result :=
  (show context.Known fun _ => [] from .of_unmarked hc).meant_gatherAll pipeline

theorem meant_feedRows :
    Meant env (fun depth => Step.eval pipeline.feed ((Evaluator.ofDepth depth).feedRows context))
      fun depth => (Meaning.ofDepth depth).feedRows context pipeline :=
  (show context.Known fun _ => [] from .of_unmarked hc).meant_feedRows pipeline

end
end HybridQuery
