import HybridQuery.Proofs.Blame.Locating
import HybridQuery.Proofs.Blame.Nodes
import HybridQuery.Proofs.Blame.Relation
import HybridQuery.Proofs.Meaning.Answers
import HybridQuery.Proofs.Spreading.Syntax

/-!
# Where the errors of a session stand

Analysis and compilation blame their failures on expressions, clauses and declarations of the module, and
what is compiled from nodes that stand in a set stands in it. Whatever a session answers a query with, an error
has a position: that of an expression, clause or declaration of the module, or the position of built-in bodies.
An error that has a position keeps it: what analysis, compilation, cursors and evaluators of plans fail with is
not changed by anything that is wrapped around them.

* `QueryModule.positions`: where the expressions, clauses and declarations of a module stand.
* `NodeRef.position_keepable`: analysis keeps positions.
* `NodeRef.position_compilesTo`: compilation puts plans where the nodes stand.
* `Evaluator.evaluate_blames`: evaluations of plans, at any depth.
* `Session.answer_blames`: analysis, compilation and evaluation of a module.
* `Expression.analyse_located`, `Expression.compile_located`: errors on the way up through a module.
* `Session.errors_located`: errors of sessions.
-/

namespace HybridQuery

/-- The nodes of a module: the expressions and clauses of its body and of the bodies of its functions. -/
def QueryModule.HasNode (m : QueryModule) (n : NodeRef) : Prop :=
  n.Below (.expression m.body) ∨ ∃ d ∈ m.functions, n.Below (.expression d.body)

/-- Where the expressions, clauses and declarations of a module stand. -/
def QueryModule.positions (m : QueryModule) : Set SourcePosition :=
  {p | (∃ n, m.HasNode n ∧ n.position = p) ∨ ∃ d ∈ m.functions, d.position = p}

variable {S : Set SourcePosition}

/-- All nodes of the part stand in the set. -/
abbrev NodesStandIn {τ : Type} [HasNodes τ] (S : Set SourcePosition) (t : τ) : Prop :=
  Everywhere (fun d => d.position ∈ S) t

/-- All nodes and declarations of the module stand in the set. -/
structure QueryModule.StandsIn (S : Set SourcePosition) (m : QueryModule) : Prop where
  body : NodesStandIn S m.body
  bodies : ∀ d ∈ m.functions, NodesStandIn S d.body
  functions : ∀ d ∈ m.functions, d.position ∈ S

theorem QueryModule.standsIn_of_positions {m : QueryModule} (h : m.positions ⊆ S) : m.StandsIn S where
  body n hn d hd := by
    cases List.mem_singleton.mp hn
    exact h (.inl ⟨d, .inl hd, rfl⟩)
  bodies f hf n hn d hd := by
    cases List.mem_singleton.mp hn
    exact h (.inl ⟨d, .inr ⟨f, hf, hd⟩, rfl⟩)
  functions f hf := h (.inr ⟨f, hf, rfl⟩)

/-! ## Analysis -/

/-- Analysis moves no node, and blames its failures on nodes that it has reached. -/
theorem NodeRef.position_keepable : Keepable (fun d => d.position ∈ S) (EngineError.Blames S) where
  expression _ h := h
  clause _ h := h
  blamed h he := by
    rcases he with he | ⟨fault, rfl⟩
    · exact he.only.locate h
    · exact (EngineError.blamesOnly_of fault).locate h

theorem QueryModule.StandsIn.analyse {m : QueryModule} (h : m.StandsIn S) :
    m.analyse.1.StandsIn S ∧ EndsIn (fun _ => True) (EngineError.Blames S) m.analyse.2 := by
  obtain ⟨⟨hfunctions, hbody⟩, hresult⟩ := QueryModule.analyse_keeps NodeRef.position_keepable
    ⟨.refl h.bodies, h.body⟩ fun d hd fault => (EngineError.blamesOnly_of fault).locate (h.functions d hd)
  refine ⟨⟨hbody, hfunctions.bodies, fun d hd => ?_⟩, hresult⟩
  obtain ⟨d₀, hd₀, heq⟩ := hfunctions.exists_position hd
  exact heq ▸ h.functions d₀ hd₀

theorem Expression.StandsIn.mode {e : Expression} (h : NodesStandIn S e) :
    EndsIn (fun _ => True) (EngineError.Blames S) e.mode :=
  Expression.mode_failsOnly NodeRef.position_keepable h

/-! ## Compilation -/

theorem Operation.clausePositions_eq (operation : Operation) :
    operation.clausePositions = operation.pipeline.positions := by
  cases operation <;> rfl

theorem Catalogue.checkAt_blames (c : Catalogue) (type : SequenceType) {position : SourcePosition}
    (hp : position ∈ S) : (c.checkAt type position).FailsOnly (EngineError.Blames S) :=
  (EndsIn.toEngine (.of_forall_ok fun _ _ => trivial)).locate hp

/-- Plans and clauses are put where the nodes stand that they are made of. -/
theorem NodeRef.position_compilesTo (c : Catalogue) :
    CompilesTo c (fun d => d.position ∈ S) (EngineError.Blames S) (Plan.StandsIn S)
      fun b => ∀ q ∈ b.positions, q ∈ S where
  mode {d} h _ := by
    rcases d.slot with ⟨_ | mode⟩
    · exact (EndsIn.fail _).locate h
    · exact .ok trivial
  type h type := c.checkAt_blames type h
  plan {_ _ _ operation} h _ hpipeline hparts := .mk h (operation.clausePositions_eq ▸ hpipeline) hparts
  start := List.forall_mem_nil _
  clause h _ _ _ hfeed := List.forall_mem_cons.mpr ⟨h, hfeed⟩

theorem Expression.compile_standsIn (c : Catalogue) (e : Expression) (h : NodesStandIn S e) :
    EndsIn (Plan.StandsIn S) (EngineError.Blames S) (e.compile c) :=
  Expression.compile_endsIn (NodeRef.position_compilesTo c) e h

/-- Plans whose body and functions stand in the set. -/
structure ModulePlan.StandsIn (S : Set SourcePosition) (plan : ModulePlan) : Prop where
  body : plan.body.StandsIn S
  functions : ∀ f ∈ plan.functions, f.body.StandsIn S

/-- The plans of a module that stands in the set stand in it, and so does what compilation is blamed on. -/
theorem QueryModule.StandsIn.compile (c : Catalogue) {m : QueryModule} (h : m.StandsIn S) :
    EndsIn (ModulePlan.StandsIn S) (EngineError.Blames S) (m.compile c) := by
  have hrefused (d : FunctionDeclaration) (hd : d ∈ m.functions) :
      d.RefusedOnly c (EngineError.Blames S) :=
    ⟨fun type => c.checkAt_blames type (h.functions d hd),
      fun _ => (EngineError.blamesOnly_of _).locate (h.functions d hd)⟩
  exact (QueryModule.compile_endsIn (NodeRef.position_compilesTo c) h.body h.bodies hrefused).mono
    (fun _ hplan => ⟨hplan.1, hplan.2⟩) fun _ he => he

variable {env : Environment}

/-! ## Evaluations -/

theorem Engine.meets_iff_outcomeFrom {α : Type} {P : α → Prop} {E : Failure → Prop} {x : Engine α} :
    x.Meets env P E ↔ ∀ r, EndsIn P E (x.outcomeFrom env r) := by
  refine forall_congr' fun r => ?_
  rw [Engine.outcomeFrom]
  cases x env r with
  | ok a s => exact ⟨fun h => .ok h, fun h => h.of_ok rfl⟩
  | error f s => exact ⟨fun h => .error h, fun h => h.of_error rfl⟩

/-- An evaluation at any depth is blamed as its meaning is. -/
theorem Evaluator.evaluate_blames (he : env.StandsIn S) {p : Plan} (hp : p.StandsIn S) {c : Context}
    (hc : c.StandsIn S) (hunmarked : c.handle = none) (depth : Nat) :
    ((ofDepth depth).plans.evaluate p c).Blames S env (ItemsStandIn S) := by
  refine Engine.meets_iff_outcomeFrom.mpr fun r => ?_
  have hmeaning : ((Meaning.ofDepth depth).plans.evaluate p c).Blames S env (ItemsStandIn S) :=
    ((Meaning.blames_ofDepth he depth).items hp hc).result.given
  have hmeant : Engine.outcomeFrom ((ofDepth depth).plans.evaluate p c) env r = _ ∨ _ :=
    (meant_evaluate p hunmarked).outcomeFrom depth r
  rcases hmeant with hmeant | hmeant
  · rw [hmeant]
    exact hmeaning.result
  · rw [hmeant]
    exact .error trivial

theorem ModulePlan.StandsIn.running {plan : ModulePlan} (h : plan.StandsIn S) (hunknown : .unknown ∈ S) :
    (env.running plan).StandsIn S := by
  refine ⟨hunknown, fun f hf => ?_⟩
  obtain ⟨g, hg, rfl⟩ := List.mem_map.mp hf
  exact ⟨h.functions g hg, .empty⟩

/-! ## The way up through a module -/

/-- An expression is analysed to a result that keeps its error, whatever functions it calls. -/
theorem Expression.analyse_located (e : Expression) (level : Nat) (inProgress : List FunctionKey)
    (scopes : List Scope) (D : Declarations) :
    ((e.analyse (declaredMode level inProgress) scopes).run D).1.2.Located := by
  have hkeepable : NodeRef.Keepable (fun _ => True) fun e => ∀ q, e.locate q = e :=
    ⟨fun _ _ => trivial, fun _ _ => trivial, fun {d e} _ _ q => e.locate_locate d.position q⟩
  have heverywhere {τ : Type} [HasNodes τ] (t : τ) : Everywhere (fun _ => True) t :=
    fun _ _ _ _ => trivial
  have hanalyse := Expression.analyse_keeps hkeepable
    (fun key => (declaredMode_keeps hkeepable level inProgress key).mono fun _ h => h.1) e scopes
    (heverywhere e) D (.refl fun _ _ => heverywhere _)
  intro q
  cases hr : ((e.analyse (declaredMode level inProgress) scopes).run D).1.2 with
  | ok mode => rfl
  | error error => exact congrArg Except.error (hanalyse.1.result.of_error hr q)

/-- An expression is compiled to a result that keeps its error. -/
theorem Expression.compile_located (e : Expression) (c : Catalogue) : (e.compile c).Located :=
  EngineResult.located_of_blames
    (Expression.compile_standsIn (S := Set.univ) c e fun _ _ _ _ => Set.mem_univ _)

/-! ## Answers -/

namespace Session

theorem evaluatePlan_blames (hunknown : .unknown ∈ S) {plan : ModulePlan} (h : plan.StandsIn S) :
    (evaluatePlan plan).Blames S env (ItemsStandIn S) := by
  intro r
  have heval : evaluatePlan plan env r =
      (Evaluator.ofDepth Evaluator.allowance).plans.evaluate plan.body .root (env.running plan) r := rfl
  rw [heval]
  exact Evaluator.evaluate_blames (h.running hunknown) h.body .root rfl Evaluator.allowance r

theorem compile_blames {m : QueryModule} (h : m.StandsIn S) :
    (compile m).Blames S env (ModulePlan.StandsIn S) := by
  have hcompile := h.compile env.catalogue
  refine .bind (.environment (.bind (.logRecord ?_)))
  generalize m.compile env.catalogue = d at hcompile
  cases hcompile with
  | ok hplan => exact .bind (.logRecord (.pure hplan))
  | error he => exact .bind (.logRecord (.raise he))

/-- Whatever analysis, compilation and evaluation of a module fail with is blamed on the module. -/
theorem answer_blames (hunknown : .unknown ∈ S) {m : QueryModule} (h : m.StandsIn S)
    {analysed : EngineResult Unit} (ha : EndsIn (fun _ => True) (EngineError.Blames S) analysed) :
    (answer m analysed).Blames S env (ItemsStandIn S) :=
  .bind_of (.ofEndsIn ha) fun _ _ => .bind_of (.ofEndsIn (Expression.StandsIn.mode h.body)) fun _ _ =>
    .bind (.log (.bind_of (compile_blames h) fun _ hplan => evaluatePlan_blames hunknown hplan))

/-- A session answers a query with items, or with an error that is blamed on the module. -/
theorem evaluate_blames (s : Session) (files : Files) {m : QueryModule} (hunknown : .unknown ∈ S)
    (h : m.StandsIn S) :
    EndsIn (ItemsStandIn S) (fun e => e = .allowanceUsed ∨ e.Blames S) (s.evaluate files m).1 := by
  obtain ⟨hm, hanalysed⟩ := h.analyse
  rw [s.evaluate_outcome]
  refine (Engine.meets_iff_outcomeFrom.mp (answer_blames hunknown hm hanalysed) _).mapError fun f hf => ?_
  cases f with
  | raised e => exact .inr hf
  | exhausted => exact .inl rfl

/-- **Every error is located.** An error of a session, unless it used up its allowance of steps, has the
position of an expression, clause or declaration of the module, or the unknown one of built-in bodies; and
wherever an error leaves analysis, compilation, a cursor or an evaluation of a plan, it has a position
that nothing on the way up replaces. -/
theorem errors_located (s : Session) (files : Files) (m : QueryModule) :
    (∀ e, (s.evaluate files m).1 = .error e → e ≠ .allowanceUsed →
      ∃ p, e.position = some p ∧ (p ∈ m.positions ∨ p = .unknown)) ∧
    (∀ ev : Evaluator, ev.items.Located ∧ ev.tuples.Located ∧ ev.plans.Located) ∧
    ∀ e : Expression, (∀ c, (e.compile c).Located) ∧ ∀ level inProgress scopes D,
      ((e.analyse (declaredMode level inProgress) scopes).run D).1.2.Located := by
  refine ⟨fun e he hallowance => ?_, fun ev => ⟨ev.items.located, ev.tuples.located, ev.located_plans⟩,
    fun e => ⟨e.compile_located, e.analyse_located⟩⟩
  have hm : m.StandsIn {p | p ∈ m.positions ∨ p = .unknown} :=
    QueryModule.standsIn_of_positions fun _ => .inl
  have hends := s.evaluate_blames files (.inr rfl) hm
  obtain ⟨p, hp, he⟩ := (hends.of_error he).resolve_left hallowance
  exact ⟨p, he, hp⟩

/-- `(1, 1 idiv 0)`, where the division stands in another line than the sequence. -/
def divisionInSequence : QueryModule :=
  let literal (n : Int) := (ExpressionKind.literal (.integer n)).bare
  let division := Expression.mk (.arithmetic .integerDivide (literal 1) (literal 0)) (.make 2 5) .empty
  ⟨[], .mk (.sequence [literal 1, division]) (.make 1 1) .empty⟩

/-- The fault of a division keeps the position of the division when it leaves the sequence around it. -/
theorem errors_located_division :
    let s : Session := ⟨"session", {}, .empty, .empty⟩
    ∃ e, (s.evaluate .empty divisionInSequence).1 = .error e ∧ e ≠ .allowanceUsed ∧
      e.position = some (.make 2 5) ∧
      ∃ p, e.position = some p ∧ (p ∈ divisionInSequence.positions ∨ p = .unknown) := by
  intro s
  have hfailed : EndsIn (fun _ => False) (fun e => e.position = some (.make 2 5))
      (s.evaluate .empty divisionInSequence).1 := by decide +kernel
  obtain ⟨e, he, hposition⟩ := hfailed.exists_error
  have hallowance : e ≠ .allowanceUsed := by
    rintro rfl
    cases hposition
  exact ⟨e, he, hallowance, hposition, (s.errors_located .empty divisionInSequence).1 e he hallowance⟩

end Session
end HybridQuery
