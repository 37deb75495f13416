import HybridQuery.Evaluation.Evaluator
import HybridQuery.Proofs.Blame.Relation

/-!
# Failures that keep their positions

A computation is located if nothing that is wrapped around it changes its failures: each of them has the
position that it was first blamed on, and keeps it on the way up. Whatever nodes do below them, cursors and
evaluators of plans are located: their operations leave no failure without a position.

* `Run.Located`: the judgement. `Run.Located.locate` is where failures get their positions; no rule takes one
  away.
* `Rules.located`, `Evaluator.located_plans`: the protocol of any cursors, and the ways to evaluate any plan.
-/

namespace HybridQuery

/-- Whatever position the result is blamed on afterwards, it stays the same. -/
def EngineResult.Located {α : Type} (d : EngineResult α) : Prop := ∀ q, d.locate q = d

/-- Whatever position the computation is blamed on afterwards, it stays the same. -/
def Run.Located {σ α : Type} (x : Run σ α) : Prop := ∀ q, x.locate q = x

/-! ## Errors and failures -/

theorem EngineError.locate_locate (e : EngineError) (p q : SourcePosition) :
    (e.locate p).locate q = e.locate p := by
  rcases e with ⟨fault, _ | p'⟩ <;> rfl

theorem Failure.locate_locate (f : Failure) (p q : SourcePosition) :
    (f.locate p).locate q = f.locate p := by
  cases f with
  | raised e => exact congrArg raised (e.locate_locate p q)
  | exhausted => rfl

namespace EngineResult

variable {α : Type}

theorem located_of_blames {S : Set SourcePosition} {P : α → Prop} {d : EngineResult α}
    (h : EndsIn P (EngineError.Blames S) d) : d.Located := by
  intro q
  cases h with
  | ok h => rfl
  | error h => exact congrArg Except.error (h.locate_eq q)

theorem Located.locate (d : EngineResult α) (p : SourcePosition) : (d.locate p).Located := by
  intro q
  cases d with
  | ok a => rfl
  | error e => exact congrArg Except.error (e.locate_locate p q)

end EngineResult

/-! ## Computations -/

namespace Run.Located

variable {σ τ υ α β : Type} {x : Run σ α}

theorem locate (x : Run σ α) (p : SourcePosition) : (x.locate p).Located := by
  intro q
  funext env s
  simp only [Run.locate]
  cases x env s with
  | ok a s => rfl
  | error f s => exact congrArg (EStateM.Result.error · s) (f.locate_locate p q)

/-- Failures of a located computation keep their positions. -/
theorem locate_eq (h : x.Located) {env : Environment} {s t : σ} {f : Failure} (hx : x env s = .error f t)
    (q : SourcePosition) : f.locate q = f := by
  have := congrFun (congrFun (h q) env) s
  simp only [Run.locate, hx] at this
  injection this

theorem of_forall (h : ∀ env s f t, x env s = .error f t → ∀ q, f.locate q = f) : x.Located := by
  intro q
  funext env s
  simp only [Run.locate]
  cases hx : x env s with
  | ok a t => rfl
  | error f t => exact congrArg (EStateM.Result.error · t) (h env s f t hx q)

theorem pure (a : α) : Run.Located (Pure.pure a : Run σ α) := fun _ => rfl

theorem raise {e : EngineError} (h : ∀ q, e.locate q = e) : Run.Located (Run.raise e : Run σ α) :=
  of_forall fun env s f t hx q => by
    cases hx
    exact congrArg Failure.raised (h q)

theorem exhausted : Run.Located (Run.exhausted : Run σ α) := fun _ => rfl

theorem environment : Run.Located (Run.environment : Run σ Environment) := fun _ => rfl

theorem ofResult {d : EngineResult α} (h : d.Located) : Run.Located (Run.ofResult d : Run σ α) := by
  cases d with
  | ok a => exact .pure a
  | error e => exact .raise fun q => Except.error.inj (h q)

theorem bind {f : α → Run σ β} (h : x.Located) (hf : ∀ a, (f a).Located) : Run.Located (x >>= f) := by
  refine of_forall fun env s e t hx q => ?_
  simp only [Bind.bind, ReaderT.bind, EStateM.bind] at hx
  cases hr : x env s with
  | ok a s' =>
    rw [hr] at hx
    exact (hf a).locate_eq hx q
  | error e' s' =>
    rw [hr] at hx
    cases hx
    exact h.locate_eq hr q

theorem onFailure (h : x.Located) (cleanUp : Run σ Unit) : Run.Located (x.onFailure cleanUp) := by
  refine of_forall fun env s f t hx q => ?_
  simp only [Run.onFailure] at hx
  cases hr : x env s with
  | ok a s' =>
    rw [hr] at hx
    cases hx
  | error e s' =>
    rw [hr] at hx
    have : f = e := by
      dsimp only at hx
      cases hc : cleanUp env s' with
      | ok _ _ => rw [hc] at hx; cases hx; rfl
      | error _ _ => rw [hc] at hx; cases hx; rfl
    exact this ▸ h.locate_eq hr q

/-! ### Steps -/

theorem count (change : Metrics → Metrics) : Run.Located (Engine.count change) := fun _ => rfl

theorem log (event : Event) (fields : List LogField) : Run.Located (Engine.log event fields) := fun _ => rfl

theorem read : Run.Located (Step.read : Step τ τ) := fun _ => rfl

theorem write (t : τ) : Run.Located (Step.write t : Step τ Unit) := fun _ => rfl

theorem lift {x : Engine α} (h : x.Located) : Run.Located (Step.lift x : Step τ α) := by
  refine of_forall fun env s f t hx q => ?_
  simp only [Step.lift] at hx
  cases hr : x env s.2 with
  | ok a r => rw [hr] at hx; cases hx
  | error e r =>
    rw [hr] at hx
    cases hx
    exact h.locate_eq hr q

theorem eval (t : τ) {x : Step τ α} (h : x.Located) : Run.Located (Step.eval t x) := by
  refine of_forall fun env s f t' hx q => ?_
  simp only [Step.eval] at hx
  cases hr : x env (t, s) with
  | ok a r => rw [hr] at hx; cases hx
  | error e r =>
    rw [hr] at hx
    cases hx
    exact h.locate_eq hr q

theorem materialize (c : Collection α) (p : SourcePosition) : Run.Located (Engine.materialize c p) :=
  environment.bind fun _ => (ofResult (.locate _ p)).bind fun _ => (count _).bind fun _ =>
    (log _ _).bind fun _ => .pure _

end Run.Located

/-! ## The protocol -/

section
variable {ν α : Type} [CursorNode ν]

theorem Cursor.located_release : Run.Located (Cursor.release : Step (Cursor ν α) Unit) :=
  .bind .read fun _ => .bind (.write _) fun _ => .lift (.count _)

/-- No operation of the protocol leaves a failure without a position. -/
structure Rules.Located (r : Rules ν α) : Prop where
  openIn (context : Context) : Run.Located (r.openIn context)
  reset (context : Context) : Run.Located (r.reset context)
  next : Run.Located r.next
  next? : Run.Located r.next?
  collection (context : Context) : Run.Located (r.collection context)
  drain (limit : Nat) : Run.Located (r.drain limit)

namespace Rules

variable (r : Rules ν α)

omit [CursorNode ν] in
theorem located_advance : Run.Located r.advance := by
  refine .bind .read fun c => ?_
  match c.materialized with
  | some [] => exact .pure none
  | some (a :: rest) => exact .bind (.write _) fun _ => .pure (some a)
  | none => exact .locate _ c.position

theorem located_collection (context : Context) : Run.Located (r.collection context) := by
  refine .bind .read fun c => ?_
  split
  · exact .locate _ c.position
  · split
    · exact .pure _
    · exact .bind (.locate _ c.position) fun _ => .bind .read fun _ => .bind (.write _) fun _ => .pure _

theorem located_begin (context : Context) : Run.Located (r.begin context) := by
  have hprepare : Run.Located (r.prepare context) := by
    refine .bind .read fun c => ?_
    cases c.mode with
    | unset | host => exact .locate _ c.position
    | rows | columns =>
      exact .bind (r.located_collection context) fun rows =>
        .bind (.lift (.materialize rows c.position)) fun _ => .bind .read fun _ => .write _
  exact hprepare.bind fun _ => r.located_advance.bind fun _ => .bind .read fun _ => .write _

theorem located_next : Run.Located r.next := by
  refine .bind .read fun c => ?_
  rcases c.lookahead.take c.name with ⟨e | a, lookahead⟩
  · exact .raise (e.locate_locate c.position)
  · exact .bind (.write _) fun _ => r.located_advance.bind fun _ => .bind .read fun _ =>
      .bind (.write _) fun _ => .pure a

theorem located_drainOnto (limit : Nat) (taken : List α) : Run.Located (r.drainOnto limit taken) := by
  induction limit generalizing taken with
  | zero => exact .exhausted
  | succ limit ih =>
    refine .bind .read fun c => ?_
    split
    · exact .bind (r.located_next.onFailure _) fun a => ih (a :: taken)
    · exact Cursor.located_release.bind fun _ => .pure _

/-- **Cursors locate failures.** Whatever their nodes fail with has a position where it leaves them. -/
theorem located : r.Located where
  openIn context := by
    refine .bind .read fun c => ?_
    dsimp only
    split
    · exact Cursor.located_release.bind fun _ => .bind (.lift (.count _)) fun _ =>
        (r.located_begin context).onFailure _
    · exact .bind (.lift (.count _)) fun _ => (r.located_begin context).onFailure _
  reset context := Cursor.located_release.bind fun _ => r.located_begin context
  next := r.located_next
  next? := by
    refine .bind .read fun c => ?_
    split
    · exact r.located_next.bind fun _ => .pure _
    · exact .pure none
  collection := r.located_collection
  drain limit := r.located_drainOnto limit []

end Rules

end

/-! ## Evaluators of plans -/

/-- No way to evaluate a plan leaves a failure without a position. -/
structure PlanEvaluator.Located (ev : PlanEvaluator) : Prop where
  evaluate (p : Plan) (context : Context) : Run.Located (ev.evaluate p context)
  rows (p : Plan) (context : Context) : Run.Located (ev.rows p context)
  planFrame (p : Plan) (context : Context) : Run.Located (ev.planFrame p context)
  firstOnHost (p : Plan) (context : Context) : Run.Located (ev.firstOnHost p context)
  emptyOnHost (p : Plan) (context : Context) : Run.Located (ev.emptyOnHost p context)

namespace Evaluator

variable (ev : Evaluator)

theorem located_frameOf (c : ItemCursor) (context : Context) : Run.Located (ev.frameOf c context) := by
  unfold frameOf
  split
  · exact .locate _ c.position
  · exact .locate _ c.position

theorem located_plans : ev.plans.Located where
  evaluate _ context := .eval _ ((ev.items.located.openIn context).bind fun _ =>
    ev.items.located.drain ev.limit)
  rows _ context := .eval _ (ev.items.located.collection context)
  planFrame p context := ev.located_frameOf p.cursor context
  firstOnHost _ context := .eval _ ((ev.items.located.openIn context).bind fun _ =>
    ev.items.located.next?.bind fun _ => Cursor.located_release.bind fun _ => .pure _)
  emptyOnHost _ context := .eval _ ((ev.items.located.openIn context).bind fun _ =>
    .bind .read fun _ => Cursor.located_release.bind fun _ => .pure _)

end Evaluator
end HybridQuery
