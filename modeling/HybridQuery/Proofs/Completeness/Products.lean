import HybridQuery.Proofs.Compilation
import HybridQuery.Proofs.Completeness.Modules
import HybridQuery.Syntax.Explain

/-!
# Analysis is complete

A module that passes analysis has a mode at every node, so that none is shown without one and none is
missing when the module is compiled. The passes, the outlines and the plans go through the same children
of every kind of node.

* `ExpressionKind.outlines_eq`: what is shown below a node are its children.
* `QueryModule.compile_noFlow`: a complete module is compiled without asking for a missing mode.
* `QueryModule.analysis_complete`: what holds at every moment of an analysis, and after it.
-/

namespace HybridQuery

/-! ## Shown nodes -/

namespace NodeRef

/-- The outline of a node. -/
def outline : NodeRef → Outline
  | expression e => e.outline
  | clause c => c.outline

end NodeRef

theorem memberOutlines_eq (es : List Expression) : memberOutlines es = (nodes es).map NodeRef.outline := by
  induction es with
  | nil => rfl
  | cons e es ih => rw [memberOutlines, ih]; rfl

theorem pairOutlines_eq (ps : List (Expression × Expression)) :
    pairOutlines ps = (nodes ps).map NodeRef.outline := by
  induction ps with
  | nil => rfl
  | cons p ps ih => rw [pairOutlines, ih]; rfl

theorem argumentOutlines_eq (as : List (Option Expression)) :
    argumentOutlines as = (nodes as).map NodeRef.outline := by
  induction as with
  | nil => rfl
  | cons a as ih => cases a <;> (rw [argumentOutlines, ih]; rfl)

theorem clauseOutlines_eq (cs : List Clause) : clauseOutlines cs = (nodes cs).map NodeRef.outline := by
  induction cs with
  | nil => rfl
  | cons c cs ih => rw [clauseOutlines, ih]; rfl

theorem orderOutlines_eq (ks : List (OrderKey Expression)) :
    orderOutlines ks = (nodes ks).map NodeRef.outline := by
  induction ks with
  | nil => rfl
  | cons k ks ih => rw [orderOutlines, ih]; rfl

theorem groupOutlines_eq (ks : List (GroupKey Expression)) :
    groupOutlines ks = (nodes ks).map NodeRef.outline := by
  induction ks with
  | nil => rfl
  | cons k ks ih =>
    obtain ⟨name, _ | e⟩ := k <;> (rw [groupOutlines, ih]; rfl)

/-- The outlines below a kind of expression are those of its children, in order. -/
theorem ExpressionKind.outlines_eq (kind : ExpressionKind) :
    kind.outlines = kind.children.map NodeRef.outline := by
  cases kind with
  | sequence members => exact memberOutlines_eq members
  | object pairs => exact pairOutlines_eq pairs
  | array members => cases members <;> rfl
  | functionCall name given => exact argumentOutlines_eq given
  | dynamicCall function given => exact congrArg (function.outline :: ·) (argumentOutlines_eq given)
  | flwor clauses result =>
    rw [outlines, clauseOutlines_eq]
    change _ = (nodes clauses ++ nodes result).map NodeRef.outline
    rw [List.map_append]
    rfl
  | _ => rfl

theorem ClauseKind.outlines_eq (kind : ClauseKind) :
    kind.outlines = kind.children.map NodeRef.outline := by
  cases kind with
  | orderBy keys => exact orderOutlines_eq keys
  | groupBy keys => exact groupOutlines_eq keys
  | _ => rfl

namespace NodeRef

theorem outline_children (n : NodeRef) : n.outline.children = n.children.map outline := by
  cases n with
  | expression e => obtain ⟨kind, position, slot⟩ := e; exact kind.outlines_eq
  | clause c => obtain ⟨kind, position, slot⟩ := c; exact kind.outlines_eq

theorem outline_mode (n : NodeRef) : n.outline.mode = n.slot.getD := by
  rcases n with ⟨⟨kind, position, slot⟩⟩ | ⟨⟨kind, position, slot⟩⟩ <;> rfl

/-- Whatever is shown of a node is the outline of a node below it. -/
theorem exists_below_of_mem_preorder (n : NodeRef) {o : Outline} (ho : o ∈ n.outline.preorder) :
    ∃ d, Below d n ∧ d.outline = o := by
  have hchildren := n.outline_children
  cases hn : n.outline with
  | node name mode position children =>
    rw [hn] at ho hchildren
    rw [Outline.preorder_node] at ho
    rcases List.mem_cons.mp ho with rfl | ho
    · exact ⟨n, .refl, hn⟩
    · obtain ⟨child, hchild, ho⟩ := List.mem_flatMap.mp ho
      obtain rfl : children = n.children.map outline := hchildren
      obtain ⟨c, hc, rfl⟩ := List.mem_map.mp hchild
      have : sizeOf c.outline < sizeOf n.outline := by
        have := List.sizeOf_lt_of_mem hchild
        rw [hn, Outline.node.sizeOf_spec]
        omega
      obtain ⟨d, hd, rfl⟩ := c.exists_below_of_mem_preorder ho
      exact ⟨d, below_iff.mpr (.inr ⟨c, hc, hd⟩), rfl⟩
termination_by sizeOf n.outline

end NodeRef

/-- A complete expression is shown with a mode on every line. -/
theorem Expression.explainLines_mode {e : Expression} (h : IsComplete e) :
    ∀ line ∈ e.explainLines, line.mode ≠ .unset := by
  intro line hline
  obtain ⟨⟨depth, o⟩, ho, rfl⟩ := List.mem_map.mp hline
  obtain ⟨d, hd, rfl⟩ := (NodeRef.expression e).exists_below_of_mem_preorder
    (List.mem_map.mpr ⟨(depth, o), ho, rfl⟩)
  obtain ⟨mode, hmode, hset⟩ := h _ List.mem_cons_self d hd
  change d.outline.mode ≠ _
  rw [d.outline_mode, ModeSlot.getD, hmode]
  exact hset

/-- The lines that are shown of an accepted module: those of its functions, then those of its body. -/
def ExplainPlan.lines : ExplainPlan → List ExplainLine
  | accepted functions body => functions.flatMap (·.2) ++ body
  | rejected _ => []

theorem ExplainPlan.lines_ofAnalysed {m : QueryModule} (h : m.Complete) :
    ∀ line ∈ (ofAnalysed m).lines, line.mode ≠ .unset := by
  refine List.forall_mem_append.mpr ⟨fun line hline => ?_, Expression.explainLines_mode h.1⟩
  obtain ⟨⟨key, lines⟩, hlines, hline⟩ := List.mem_flatMap.mp hline
  obtain ⟨d, hd, ⟨⟩⟩ := List.mem_map.mp hlines
  exact Expression.explainLines_mode (h.2 d hd) line hline

/-! ## Compiled nodes -/

/-- A result that is no fault of the order in which modes are computed and read. -/
def EngineResult.NoFlow {α : Type} (r : EngineResult α) : Prop := ∀ e, r = .error e → e.code ≠ .iteratorFlow

theorem EngineError.locate_code (e : EngineError) (position : SourcePosition) :
    (e.locate position).code = e.code := by
  rw [EngineError.locate]
  split <;> rfl

theorem TypeFault.toFault_code (f : TypeFault) : f.toFault.code ≠ .iteratorFlow := by
  rw [TypeFault.toFault]
  split <;> nofun

theorem Catalogue.checkAt_noFlow (c : Catalogue) (type : SequenceType) (position : SourcePosition) :
    (c.checkAt type position).FailsOnly (·.code ≠ .iteratorFlow) := by
  have hcheck : EndsIn (fun _ => True) (fun _ => True) (c.check type) := .of_forall_ok fun _ _ => trivial
  have hengine : (c.check type).toEngine.FailsOnly (·.code ≠ .iteratorFlow) :=
    hcheck.mapError fun f _ => f.toFault_code
  refine hengine.mapError fun e he => ?_
  rw [EngineError.locate_code]
  exact he

/-- A node that has a mode is not asked for it in vain, and the types of a signature have other faults. -/
theorem NodeRef.hasMode_compilesTo (c : Catalogue) :
    CompilesTo c HasMode (·.code ≠ .iteratorFlow) (fun _ => True) fun _ => True where
  mode {d} h name := by
    obtain ⟨mode, hmode, -⟩ := h
    rw [ModeSlot.get, hmode]
    exact .ok trivial
  type {d} _ type := c.checkAt_noFlow type d.position
  plan _ _ _ _ := trivial
  start := trivial
  clause _ _ _ _ _ := trivial

/-- A complete module is compiled, or it fails because of a type or of a function that it declares. -/
theorem QueryModule.compile_noFlow (c : Catalogue) {m : QueryModule} (h : m.Complete) :
    (m.compile c).NoFlow := by
  have hrefused (d : FunctionDeclaration) : d.RefusedOnly c (·.code ≠ .iteratorFlow) :=
    ⟨fun type => c.checkAt_noFlow type d.position, fun key => by
      rw [EngineError.locate_code]
      nofun⟩
  have hcompile := QueryModule.compile_endsIn (NodeRef.hasMode_compilesTo c) h.1 h.2 fun d _ => hrefused d
  exact fun _ he => hcompile.of_error he

/-! ## Modules -/

/-- At every moment of an analysis, a node that has a mode has only nodes with modes below it, whether
the analysis succeeds or not. If it succeeds, every node of the body and of every declared function has
a mode: every line that is shown of the module has one, and compiling the module never asks for one that
is missing. -/
theorem QueryModule.analysis_complete {m : QueryModule} (h : m.Settled) :
    (∀ s ∈ m.moments, s.Settled) ∧
    (m.analyse.2 = .ok () →
      m.analyse.1.Complete ∧
      (∀ line ∈ (ExplainPlan.ofModule m).2.lines, line.mode ≠ .unset) ∧
      ∀ c e, m.analyse.1.compile c = .error e → e.code ≠ .iteratorFlow) := by
  refine ⟨moments_settled h, fun hok => ?_⟩
  have hcomplete := analyse_complete h hok
  refine ⟨hcomplete, ?_, fun c => compile_noFlow c hcomplete⟩
  have hplan : (ExplainPlan.ofModule m).2 = .ofAnalysed m.analyse.1 := by
    rw [ExplainPlan.ofModule]
    rcases hx : m.analyse with ⟨n, e | ⟨⟩⟩
    · rw [hx] at hok
      cases hok
    · rfl
  rw [hplan]
  exact ExplainPlan.lines_ofAnalysed hcomplete

/-- A recursive function that is called for each item of a sequence. -/
theorem QueryModule.analysis_complete_recursive :
    let node (kind : ExpressionKind) : Expression := .mk kind .unknown .empty
    let call (argument : Expression) : Expression := node (.functionCall "f" [some argument])
    let m : QueryModule :=
      { functions := [⟨"f", [⟨"n", .unconstrained⟩], .unconstrained, call (node (.varRef "n")), .unknown⟩]
        body := node (.flwor
          [.mk (.forEach "i" none false (node (.sequence [node (.literal (.integer 1))]))) .unknown .empty]
          (call (node (.varRef "i")))) }
    m.Settled ∧ m.analyse.2 = .ok () ∧
      (∀ s ∈ m.moments, s.Settled) ∧ m.analyse.1.Complete ∧
      (∀ line ∈ (ExplainPlan.ofModule m).2.lines, line.mode ≠ .unset) ∧
      ∀ c e, m.analyse.1.compile c = .error e → e.code ≠ .iteratorFlow := by
  intro node call m
  have hleaf {kind : ExpressionKind} (h : nodes kind = []) : IsSettled (node kind) :=
    IsSettled.expression (fun n hn => absurd (h ▸ hn) List.not_mem_nil) .unknown
  have hcall {e : Expression} (h : IsSettled e) : IsSettled (call e) := IsSettled.expression h .unknown
  have hmembers : IsSettled (node (.sequence [node (.literal (.integer 1))])) :=
    IsSettled.expression (hleaf rfl) .unknown
  have hclauses : IsSettled
      [Clause.mk (.forEach "i" none false (node (.sequence [node (.literal (.integer 1))]))) .unknown .empty] :=
    IsSettled.clause hmembers .unknown
  have hm : m.Settled :=
    ⟨IsSettled.expression (isSettled_pair.mpr ⟨hclauses, hcall (hleaf rfl)⟩) .unknown,
      List.forall_mem_singleton.mpr (hcall (hleaf rfl))⟩
  have hok : m.analyse.2 = .ok () := by rfl
  obtain ⟨hmoments, hend⟩ := QueryModule.analysis_complete hm
  exact ⟨hm, hok, hmoments, hend hok⟩

end HybridQuery
