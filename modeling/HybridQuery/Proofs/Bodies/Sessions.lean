import Mathlib.Algebra.GroupWithZero.Nat
import HybridQuery.Proofs.Bodies.Nodes
import HybridQuery.Proofs.Cursors.Histories
import HybridQuery.Proofs.Meaning.Answers
import HybridQuery.Proofs.Spreading.Syntax

/-!
# Function bodies are released

A host drives the cursors of a plan in any order, and some of its calls fail. At no time have more function
bodies been closed than opened: all that the cursors of the host hold are owed. A query is one such history.

* `CursorCall.accounted`: one call keeps the books.
* `Host.Covered.performAll`: so does whatever a host does.
* `Host.bodies_le_owed`: what follows for the cursors of a plan.
* `Session.bodies_released`: an evaluation that ends with items has closed as many function bodies as it
  opened; one that fails has not closed more.
* `Session.head_loses_body`: it may have closed fewer.
-/

namespace HybridQuery

/-! ## Hosts -/

section

variable {env : Environment} {ev : Evaluator} {lost : Int}

/-- No call closes more bodies than the cursor held or the call opened, even if it fails. -/
theorem CursorCall.accounted (h : ev.Accounted False) (call : CursorCall) {c : ItemCursor} {r : RunRecord}
    (hb : Books False lost r.owed c.bodies) :
    Accounts False env (call.run ev) c r lost Cursor.bodies fun _ _ => True := by
  cases call with
  | openIn context => exact (h.items.openIn context False.elim hb).mono fun _ _ _ => trivial
  | reset context => exact (h.items.reset context hb).mono fun _ _ _ => trivial
  | next =>
    exact .bind ((h.items.next False.elim hb).mono fun _ _ _ _ hb => .pure hb trivial)
  | close => exact h.items.release hb trivial
  | collection context =>
    exact .bind ((h.items.collection context False.elim hb).mono fun _ _ _ _ hb => .pure hb trivial)
  | frame context =>
    exact .read_bind (.balanced_bind hb (h.frameOf c context) fun _ _ hb => .pure hb trivial)

/-- What a step leaves behind holds no body that is not owed. -/
theorem Accounts.leaves {σ β : Type} {x : Step σ β} {s : σ} {r : RunRecord} {held : σ → Nat}
    {Q : β → σ → Prop} (h : Accounts False env x s r lost held Q) :
    lost + held (x.leaves env (s, r)).1 ≤ (x.leaves env (s, r)).2.owed := by
  unfold Accounts at h
  rw [Step.leaves]
  cases hx : x env (s, r) with
  | ok b s' => rw [hx] at h; exact h.2.le
  | error f s' => rw [hx] at h; exact h

namespace Host

/-- Function bodies that the cursors of a host hold. -/
def bodies (host : Host) : Nat := (host.cursors.map Cursor.bodies).sum

/-- All that the cursors of a host hold is owed, beside what was lost before. -/
def Covered (lost : Int) (host : Host) : Prop := lost + host.bodies ≤ host.record.owed

/-- A call changes what one cursor holds. -/
theorem bodies_set {cursors : List ItemCursor} {index : Nat} {c : ItemCursor} (c' : ItemCursor)
    (hc : cursors[index]? = some c) :
    ((cursors.set index c').map Cursor.bodies).sum + c.bodies =
      (cursors.map Cursor.bodies).sum + c'.bodies := by
  induction cursors generalizing index with
  | nil => cases hc
  | cons d cursors ih =>
    cases index with
    | zero =>
      obtain rfl : d = c := Option.some.inj hc
      simp only [List.set_cons_zero, List.map_cons, List.sum_cons]
      omega
    | succ index =>
      have := ih hc
      simp only [List.set_cons_succ, List.map_cons, List.sum_cons]
      omega

namespace Covered

variable {host : Host} (hev : ev.Accounted False) (h : host.Covered lost)
include hev h

theorem perform (action : HostAction) : (host.perform env ev action).Covered lost := by
  cases action with
  | call index call =>
    rw [Host.perform]
    split
    · next c hc =>
      -- What the other cursors hold is lost to the call.
      have hother : lost + host.bodies - c.bodies + c.bodies ≤ host.record.owed := by
        have := h
        rw [Covered] at this
        omega
      have hcall : Accounts False env (call.run ev) c host.record (lost + host.bodies - c.bodies)
        Cursor.bodies fun _ _ => True := call.accounted hev (.of_le hother)
      have hleft := hcall.leaves
      have hset := bodies_set ((call.run ev).leaves env (c, host.record)).1 hc
      rw [Covered, bodies]
      rw [bodies] at hleft
      dsimp only at hleft ⊢
      omega
    · exact h
  | copy index =>
    rw [Host.perform]
    split
    · next c hc =>
      have hcopy : (host.cursors ++ [c.closed]).map Cursor.bodies =
          host.cursors.map Cursor.bodies ++ [0] := by
        rw [List.map_append, List.map_singleton, hev.items.bodies_closed]
      rw [Covered, bodies, hcopy, List.sum_append_nat]
      exact h
    · exact h

theorem performAll (actions : List HostAction) : (host.performAll env ev actions).Covered lost := by
  induction actions generalizing host with
  | nil => exact h
  | cons action actions ih => exact ih (h.perform hev action)

end Covered

/-- **Closed bodies were opened.** Whatever a host does with the cursors of a plan, and whatever fails, the
bodies that they hold then were opened meanwhile and not closed. -/
theorem bodies_le_owed (p : Plan) (record : RunRecord) (depth : Nat) (actions : List HostAction) :
    let host := Host.performAll env (.ofDepth depth) ⟨[p.cursor], record⟩ actions
    record.owed + host.bodies ≤ host.record.owed := by
  have hev : (Evaluator.ofDepth depth).Accounted False := Evaluator.accounted_ofDepth depth
  have hnone : p.cursor.bodies = 0 := hev.bodies_of_closed p.closed_cursor
  have hstart : Host.Covered record.owed ⟨[p.cursor], record⟩ := by
    simp only [Covered, bodies, List.map_cons, List.map_nil, List.sum_cons, List.sum_nil, hnone]
    omega
  exact hstart.performAll hev actions

end Host

end

open Engine (Balanced)

variable {clean : Prop}

/-! ## Queries -/

/-- A computation whose outcome is handed to one that fails if it failed. -/
theorem Engine.Balanced.outcome_bind {α β : Type} {x : Engine α} {f : Except Failure α → Engine β}
    (hx : x.Balanced clean) (hok : ∀ a, (f (.ok a)).Balanced clean)
    (herror : ∀ e env r, ∃ e' r', f (.error e) env r = .error e' r' ∧ r'.owed = r.owed) :
    (x.outcome >>= f).Balanced clean := by
  intro env r
  have hbind := Engine.Yields.bind hx hok env r
  have hx := hx env r
  simp only [Engine.outcome, Bind.bind, ReaderT.bind, EStateM.bind] at hbind ⊢
  cases hrun : x env r with
  | ok a r' =>
    rw [hrun] at hbind
    exact hbind
  | error e r' =>
    obtain ⟨e', r'', hf, howed⟩ := herror e env r'
    rw [hrun] at hx
    simp only [hf]
    exact howed ▸ hx

namespace Session

theorem balanced_logRecord (record : LogRecord) : (Engine.logRecord record).Balanced clean :=
  .of_owed fun _ r => by
    simp only [Engine.logRecord, RunRecord.owed]
    split <;> rfl

theorem balanced_compile (m : QueryModule) : (compile m).Balanced clean := by
  refine Engine.Yields.bind (x := Run.environment) (.of_owed fun _ _ => rfl) fun env =>
    .bind (balanced_logRecord _) fun _ => ?_
  cases m.compile env.catalogue with
  | ok plan => exact .bind (balanced_logRecord _) fun _ => .pure rfl trivial
  | error e => exact .bind (balanced_logRecord _) fun _ => .raise e

theorem balanced_evaluatePlan (plan : ModulePlan) : (evaluatePlan plan).Balanced clean := fun env r =>
  (Evaluator.accounted_ofDepth Evaluator.allowance).plans.evaluate plan.body .root (env.running plan) r

theorem balanced_answer (m : QueryModule) (analysed : EngineResult Unit) :
    (answer m analysed).Balanced clean :=
  .bind (Balanced.inherited.ofResult _) fun _ => .bind (Balanced.inherited.ofResult _) fun _ =>
    .bind (balanced_logRecord _) fun _ => .bind (balanced_compile m) balanced_evaluatePlan

theorem settle_error (f : Failure) (env : Environment) (r : RunRecord) :
    ∃ r', settle (.error f) env r = .error (.raised f.toError) r' ∧ r'.owed = r.owed := by
  refine ⟨_, rfl, ?_⟩
  split <;> rfl

theorem balanced_query (m : QueryModule) (analysed : EngineResult Unit) :
    (query m analysed).Balanced clean := by
  refine .bind (balanced_logRecord _) fun _ =>
    Balanced.outcome_bind (balanced_answer m analysed) (fun items => ?_) fun f env r => ⟨_, settle_error f env r⟩
  exact .bind (Balanced.inherited.count (fun _ => rfl) fun _ => rfl) fun _ =>
    .bind (balanced_logRecord _) fun _ => .pure rfl trivial

/-- **Function bodies are released.** An evaluation never closes more function bodies than it opens, and
one that ends with items closes all of them. -/
theorem bodies_released (s : Session) (files : Files) (m : QueryModule) :
    s.record.owed ≤ (s.evaluate files m).2.2.record.owed ∧
      ∀ items, (s.evaluate files m).1 = .ok items →
        (s.evaluate files m).2.2.record.owed = s.record.owed := by
  have hquery : (query m.analyse.1 m.analyse.2).Balanced True := balanced_query _ _
  have h := hquery (s.environment files) s.record
  have hevaluate : s.evaluate files m = ((s.run files (query m.analyse.1 m.analyse.2)).1, m.analyse.1,
    (s.run files (query m.analyse.1 m.analyse.2)).2) := rfl
  rw [hevaluate, run]
  cases hrun : query m.analyse.1 m.analyse.2 (s.environment files) s.record with
  | ok items r =>
    rw [hrun] at h
    have := h.2.eq trivial
    dsimp only at this ⊢
    exact ⟨by omega, fun _ _ => by omega⟩
  | error f r =>
    rw [hrun] at h
    refine ⟨h, fun items hok => ?_⟩
    cases hok

/-- `declare function f() { (1, 2, 1 idiv 0) }; head(f())`, or with the last member left out. -/
def headOf (faulty : Bool) : QueryModule :=
  let literal (n : Int) := (ExpressionKind.literal (.integer n)).bare
  let fault := (ExpressionKind.arithmetic .integerDivide (literal 1) (literal 0)).bare
  let members := if faulty then [literal 1, literal 2, fault] else [literal 1, literal 2]
  ⟨[⟨"f", [], .unconstrained, (ExpressionKind.sequence members).bare, .unknown⟩],
    (ExpressionKind.functionCall "head" [some (ExpressionKind.functionCall "f" []).bare]).bare⟩

/-- Stopping at the first item of a function closes its body. -/
theorem bodies_released_head :
    let s : Session := ⟨"session", {}, .empty, .empty⟩
    (∃ items, (s.evaluate .empty (headOf false)).1 = .ok items ∧
        (s.evaluate .empty (headOf false)).2.2.record.owed = s.record.owed) ∧
      (s.evaluate .empty (headOf false)).2.2.record.metrics.bodiesOpened = 1 := by
  intro s
  have hanswered : EndsIn (fun _ => True) (fun _ => False) (s.evaluate .empty (headOf false)).1 := by
    decide +kernel
  obtain ⟨items, hitems, -⟩ := hanswered.exists_ok
  exact ⟨⟨items, hitems, (s.bodies_released .empty (headOf false)).2 items hitems⟩, by decide +kernel⟩

/-- Stopping at the first item loses the body if a later one fails: the body computes items ahead, and
nothing closes it after that failure. -/
theorem head_loses_body :
    let s : Session := ⟨"session", {}, .empty, .empty⟩
    (∃ e, (s.evaluate .empty (headOf true)).1 = .error e) ∧
      (s.evaluate .empty (headOf true)).2.2.record.owed = s.record.owed + 1 := by
  intro s
  have hfailed : EndsIn (fun _ => False) (fun _ => True) (s.evaluate .empty (headOf true)).1 := by
    decide +kernel
  obtain ⟨e, he, -⟩ := hfailed.exists_error
  exact ⟨⟨e, he⟩, by decide +kernel⟩

end Session

end HybridQuery
