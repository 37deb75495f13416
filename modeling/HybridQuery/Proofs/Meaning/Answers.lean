import HybridQuery.Proofs.Meaning.Adequacy
import HybridQuery.Proofs.Results
import HybridQuery.Session.Basic

/-!
# Answers to queries

* `QueryModule.Yields`: what a module evaluates to once it is analysed and compiled, however many steps
  that takes.
* `Session.yields_of_evaluate`, `QueryModule.Yields.evaluate`: a session answers a query with what the
  module yields, unless its allowance of steps is used up.
-/

namespace HybridQuery

/-- What the evaluation of a compiled module reads. -/
def Environment.running (env : Environment) (plan : ModulePlan) : Environment :=
  { env with functions := .ofPlans plan.functions }

/-- A module is accepted by analysis and compilation, and its evaluation settles on a result. -/
def QueryModule.Yields (m : QueryModule) (env : Environment) (d : EngineResult Sequence) : Prop :=
  ∃ a plan, m.analyse = (a, .ok ()) ∧ a.compile env.catalogue = .ok plan ∧
    Settles (env.running plan)
      (fun depth => (Evaluator.ofDepth depth).plans.evaluate plan.body .root) d

/-- The error of an evaluation that takes more steps than are allowed. -/
def EngineError.allowanceUsed : EngineError := .of .allowanceUsed

/-! ## One evaluation -/

/-- What a computation ends in, given what was recorded before. -/
def Engine.outcomeFrom {α : Type} (x : Engine α) (env : Environment) (r : RunRecord) :
    Except Failure α :=
  match x env r with
  | .ok a _ => .ok a
  | .error f _ => .error f

/-- What a computation ends in at a depth it means there, unless it gives up. -/
theorem Meant.outcomeFrom {α : Type} {env : Environment} {x y : ℕ → Engine α} (h : Meant env x y)
    (depth : Nat) (r : RunRecord) :
    (x depth).outcomeFrom env r = (y depth).result env ∨
      (x depth).outcomeFrom env r = .error .exhausted := by
  have hanswers := (Tends.pure_iff.mp (h.within depth)).2
  rw [Nat.add_zero] at hanswers
  obtain ⟨-, hfalse⟩ | hends := hanswers
  · exact absurd trivial hfalse
  have hends := hends r
  rw [Engine.outcomeFrom]
  cases hrun : x depth env r with
  | ok a t =>
    rw [hrun] at hends
    exact .inl hends.symm
  | error f t =>
    rw [hrun] at hends
    exact hends.imp (fun h => h.symm) fun h => by rw [h.2]

/-- The record after something is logged. -/
def RunRecord.logged (r : RunRecord) (env : Environment) (record : LogRecord) : RunRecord :=
  if record.severity.reaches env.minimum then { r with log := r.log ++ [record] } else r

theorem Engine.logRecord_eq (record : LogRecord) (env : Environment) (r : RunRecord) :
    Engine.logRecord record env r = .ok () (r.logged env record) := rfl

/-- Compiling a module succeeds whatever was recorded before. -/
theorem Session.compile_of_eq {a : QueryModule} {env : Environment} {plan : ModulePlan}
    (hplan : a.compile env.catalogue = .ok plan) (r : RunRecord) :
    ∃ t, Session.compile a env r = .ok plan t := by
  refine ⟨(r.logged env (phaseBegun "COMPILE")).logged env (phaseEnded "COMPILE" .complete), ?_⟩
  simp only [Session.compile, Run.environment, hplan, Bind.bind, ReaderT.bind, EStateM.bind]
  rfl

theorem Session.mode_of_compile {a : QueryModule} {c : Catalogue} {plan : ModulePlan}
    (hplan : a.compile c = .ok plan) : ∃ mode, a.body.mode = .ok mode := by
  rcases a with ⟨functions, ⟨kind, position, ⟨_ | mode⟩⟩⟩
  · rw [QueryModule.compile] at hplan
    cases hfunctions : compileDeclarations c [] functions with
    | error e => rw [hfunctions] at hplan; cases hplan
    | ok plans => rw [hfunctions] at hplan; cases hplan
  · exact ⟨mode, rfl⟩

/-- What an evaluation of a compiled module does after its phases are logged. -/
theorem Session.answer_of_compile {a : QueryModule} {env : Environment} {plan : ModulePlan}
    (hplan : a.compile env.catalogue = .ok plan) (r : RunRecord) :
    ∃ t, (Session.answer a (.ok ())).outcomeFrom env r =
      (Evaluator.full.plans.evaluate plan.body .root).outcomeFrom (env.running plan) t := by
  obtain ⟨mode, hmode⟩ := mode_of_compile hplan
  have hanswer (k : ModulePlan → Engine Sequence) : ∃ t, Engine.outcomeFrom (do
      Run.ofResult (.ok ())
      let mode ← Run.ofResult a.body.mode
      Engine.log .queryAnalysed [("mode", mode.text)]
      k (← Session.compile a)) env r = (k plan).outcomeFrom env t := by
    obtain ⟨t, ht⟩ :=
      compile_of_eq hplan (r.logged env (Event.queryAnalysed.record [("mode", mode.text)]))
    refine ⟨t, ?_⟩
    rw [hmode]
    simp only [Engine.outcomeFrom, Run.ofResult, Engine.log, Engine.logRecord_eq, Bind.bind,
      ReaderT.bind, EStateM.bind, Pure.pure, ReaderT.pure, EStateM.pure, ht]
  exact hanswer evaluatePlan

/-- The record of a session once it has noted that a query came in. -/
def Session.receiving (s : Session) (files : Files) (m : QueryModule) : RunRecord :=
  s.record.logged (s.environment files)
    (Event.queryReceived.record [("functions", toString m.functions.length)])

/-- A query is answered with what its evaluation ends in after the query is noted. -/
theorem Session.evaluate_outcome (s : Session) (files : Files) (m : QueryModule) :
    (s.evaluate files m).1 =
      ((Session.answer m.analyse.1 m.analyse.2).outcomeFrom (s.environment files)
        (s.receiving files m.analyse.1)).mapError Failure.toError := by
  have hquery (x : Engine Sequence) (fields : List LogField) : (s.run files (do
      Engine.log .queryReceived fields
      settle (← Engine.outcome x))).1 =
        (x.outcomeFrom (s.environment files)
          (s.record.logged (s.environment files) (Event.queryReceived.record fields))).mapError
            Failure.toError := by
    simp only [run, Engine.log, Engine.logRecord_eq, Engine.outcome, Engine.outcomeFrom, Bind.bind,
      ReaderT.bind, EStateM.bind]
    cases x (s.environment files) _ <;> rfl
  exact hquery _ _

/-- A query is answered with what its evaluation ends in. -/
theorem Session.evaluate_fst (s : Session) (files : Files) (m : QueryModule) :
    ∃ r, (s.evaluate files m).1 =
      ((Session.answer m.analyse.1 m.analyse.2).outcomeFrom (s.environment files) r).mapError
        Failure.toError := ⟨_, s.evaluate_outcome files m⟩

/-! ## Answers of sessions -/

theorem Session.evaluate_of_compile (s : Session) (files : Files) {m a : QueryModule}
    {plan : ModulePlan} (ha : m.analyse = (a, .ok ()))
    (hplan : a.compile (s.environment files).catalogue = .ok plan) :
    ∃ r, (s.evaluate files m).1 =
      ((Evaluator.full.plans.evaluate plan.body .root).outcomeFrom
        ((s.environment files).running plan) r).mapError Failure.toError := by
  obtain ⟨r, hr⟩ := s.evaluate_fst files m
  rw [ha] at hr
  obtain ⟨t, ht⟩ := answer_of_compile hplan r
  exact ⟨t, by rw [hr, ht]⟩

/-- What a session answers a query with is what the module means at some depth, unless the allowance of
steps is used up. -/
theorem Session.evaluate_eq (s : Session) (files : Files) {m a : QueryModule} {plan : ModulePlan}
    (ha : m.analyse = (a, .ok ()))
    (hplan : a.compile (s.environment files).catalogue = .ok plan) :
    (∃ depth, ((Meaning.ofDepth depth).plans.evaluate plan.body .root).result
        ((s.environment files).running plan) = (s.evaluate files m).1.raised) ∨
      (s.evaluate files m).1 = .error .allowanceUsed := by
  obtain ⟨r, hr⟩ := s.evaluate_of_compile files ha hplan
  have hmeant : Meant ((s.environment files).running plan)
      (fun depth => (Evaluator.ofDepth depth).plans.evaluate plan.body .root)
      (fun depth => (Meaning.ofDepth depth).plans.evaluate plan.body .root) :=
    meant_evaluate plan.body rfl
  have hends : (Evaluator.full.plans.evaluate plan.body .root).outcomeFrom _ r = _ ∨
      (Evaluator.full.plans.evaluate plan.body .root).outcomeFrom _ r = _ :=
    hmeant.outcomeFrom Evaluator.allowance r
  rcases hends with hends | hends
  · rw [hends] at hr
    rcases hresult : ((Meaning.ofDepth Evaluator.allowance).plans.evaluate plan.body .root).result
      ((s.environment files).running plan) with (e | _) | items
    · exact .inl ⟨_, by rw [hr, hresult]; rfl⟩
    · exact .inr (by rw [hr, hresult]; rfl)
    · exact .inl ⟨_, by rw [hr, hresult]; rfl⟩
  · rw [hends] at hr
    exact .inr hr

/-- A session answers a query with what the module yields, unless its allowance is used up. -/
theorem QueryModule.Yields.evaluate {s : Session} {files : Files} {m : QueryModule}
    {d : EngineResult Sequence} (h : m.Yields (s.environment files) d) :
    (s.evaluate files m).1 = d ∨ (s.evaluate files m).1 = .error .allowanceUsed := by
  obtain ⟨a, plan, ha, hplan, hd⟩ := h
  refine (s.evaluate_eq files ha hplan).imp_left fun ⟨depth, hdepth⟩ => ?_
  exact ((meant_evaluate plan.body rfl).settles_of_result depth hdepth).unique hd

/-- What a session answers a query with the module yields, if it is accepted and the allowance of steps
suffices. -/
theorem Session.yields_of_evaluate {s : Session} {files : Files} {m a : QueryModule}
    {plan : ModulePlan} (ha : m.analyse = (a, .ok ()))
    (hplan : a.compile (s.environment files).catalogue = .ok plan)
    (hallowance : (s.evaluate files m).1 ≠ .error .allowanceUsed) :
    m.Yields (s.environment files) (s.evaluate files m).1 := by
  obtain ⟨depth, hdepth⟩ := (s.evaluate_eq files ha hplan).resolve_right hallowance
  exact ⟨a, plan, ha, hplan, (meant_evaluate plan.body rfl).settles_of_result depth hdepth⟩

/-- A module that is answered with items is accepted. -/
theorem Session.accepted_of_evaluate {s : Session} {files : Files} {m : QueryModule} {items : Sequence}
    (h : (s.evaluate files m).1 = .ok items) :
    ∃ a plan, m.analyse = (a, .ok ()) ∧ a.compile (s.environment files).catalogue = .ok plan := by
  obtain ⟨r, hr⟩ := s.evaluate_fst files m
  rw [h] at hr
  rcases ha : m.analyse with ⟨a, analysed⟩
  rw [ha] at hr
  cases analysed with
  | error e => cases hr
  | ok _ =>
    cases hplan : a.compile (s.environment files).catalogue with
    | ok plan => exact ⟨a, plan, rfl, hplan⟩
    | error e =>
      simp only [Engine.outcomeFrom, answer, Session.compile, Run.ofResult, Run.environment, hplan,
        Engine.log, Engine.logRecord_eq, Bind.bind, ReaderT.bind, EStateM.bind, Pure.pure,
        ReaderT.pure, EStateM.pure, Run.raise] at hr
      cases hmode : a.body.mode with
      | error e => rw [hmode] at hr; cases hr
      | ok mode => rw [hmode] at hr; cases hr

/-- Whatever items a session answers a query with, the module yields them. -/
theorem Session.yields_of_evaluate_ok {s : Session} {files : Files} {m : QueryModule}
    {items : Sequence} (h : (s.evaluate files m).1 = .ok items) :
    m.Yields (s.environment files) (.ok items) := by
  obtain ⟨a, plan, ha, hplan⟩ := accepted_of_evaluate h
  have hyields := yields_of_evaluate ha hplan (by rw [h]; nofun)
  rwa [h] at hyields

/-! ## Answers of given items -/

theorem Item.eq_of_integer? {i : Item} {n : Int64} (h : i.integer? = some n) : i = .integer n := by
  cases i <;> cases h
  rfl

theorem Item.eq_of_boolean? {i : Item} {b : Bool} (h : i.boolean? = some b) : i = .boolean b := by
  cases i <;> cases h
  rfl

section
variable {α : Type} {read : Item → Option α} {make : α → Item}
  (hread : ∀ {i a}, read i = some a → i = make a)
include hread

theorem Sequence.eq_of_read {items : Sequence} {values : List α}
    (h : items.map read = values.map some) : items = values.map make := by
  induction items generalizing values with
  | nil =>
    rw [List.map_eq_nil_iff.mp h.symm]
    rfl
  | cons i items ih =>
    obtain ⟨a, values, rfl, ha, hrest⟩ := List.map_eq_cons_iff.mp h.symm
    rw [hread ha.symm, ih hrest.symm]
    rfl

/-- An answer is told by what is read from its items. There is no equality of items that could be decided,
as there are functions among them. -/
theorem EngineResult.eq_ok_of_read {d : EngineResult Sequence} (values : List α)
    (h : EndsIn (fun items => items.map read = values.map some) (fun _ => False) d) :
    d = .ok (values.map make) := by
  obtain ⟨items, rfl, hitems⟩ := h.exists_ok
  rw [Sequence.eq_of_read hread hitems]

end

end HybridQuery
