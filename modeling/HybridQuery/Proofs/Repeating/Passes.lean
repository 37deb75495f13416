import HybridQuery.Proofs.Passes
import Mathlib.Data.List.Forall2

/-!
# Passes over what a pass left behind

A pass that succeeded is over at once when it is run again: every expression it went through has its mode
now. One that failed goes past all that it went through before, and meets the node it failed at with
everything around it as it was; so it fails there again, and leaves nothing new behind.

Only the functions that are being analysed look different by then. Their bodies are written back when the
pass over them is over, and while it goes on nothing reads them.

* `Declarations.SameBut`: the same declared functions, but for the bodies of some.
* `Pass.FailsAgain`, `Pass.Repeats`: the judgements on passes, with a rule for every way to combine them.
* `Expression.repeats` and its like: every pass over a part repeats itself if the modes of calls do.
-/

namespace HybridQuery

/-! ## Declared functions -/

/-- The same declared function, but for its body. -/
def FunctionDeclaration.SameHead (d d' : FunctionDeclaration) : Prop := d' = { d with body := d'.body }

namespace FunctionDeclaration.SameHead

variable {d d' d'' : FunctionDeclaration}

theorem key (h : d.SameHead d') : d'.key = d.key := by
  rw [h]
  rfl

theorem trans (h : d.SameHead d') (h' : d'.SameHead d'') : d.SameHead d'' := by
  rw [SameHead] at h h'
  rw [h', h]
  rfl

theorem withBody (h : d.SameHead d') (body : Expression) : d.SameHead { d' with body := body } :=
  h.trans rfl

end FunctionDeclaration.SameHead

/-- The same declared function, but for its body if the function is being analysed. -/
structure FunctionDeclaration.SameBut (busy : List FunctionKey) (d d' : FunctionDeclaration) : Prop where
  head : d.SameHead d'
  same : d.key ∉ busy → d' = d

/-- The same declared functions, but for the bodies of those that are being analysed. -/
def Declarations.SameBut (busy : List FunctionKey) (D D' : Declarations) : Prop :=
  List.Forall₂ (FunctionDeclaration.SameBut busy) D D'

namespace Declarations.SameBut

variable {busy : List FunctionKey} {D D' : Declarations} {key : FunctionKey} {body : Expression}

theorem refl (busy : List FunctionKey) (D : Declarations) : SameBut busy D D :=
  List.forall₂_same.mpr fun _ _ => ⟨rfl, fun _ => rfl⟩

/-- There is no difference where nothing is being analysed. -/
theorem eq (h : SameBut [] D D') : D' = D := by
  induction h with
  | nil => rfl
  | cons hd _ ih => rw [hd.same List.not_mem_nil, ih]

theorem any (h : SameBut busy D D') (key : FunctionKey) :
    D'.any (·.key == key) = D.any (·.key == key) := by
  induction h with
  | nil => rfl
  | cons hd _ ih => rw [List.any_cons, List.any_cons, ih, hd.head.key]

/-- A function that is not being analysed is the same. -/
theorem find? (h : SameBut busy D D') (hkey : key ∉ busy) :
    D'.find? (·.key == key) = D.find? (·.key == key) := by
  induction h with
  | nil => rfl
  | cons hd _ ih =>
    rw [List.find?_cons, List.find?_cons, hd.head.key, ih]
    split
    · next hfound => rw [hd.same (beq_iff_eq.mp hfound ▸ hkey)]
    · rfl

/-- The body that was written back when the analysis of a function was over is not seen in its course. -/
theorem of_setBody (h : SameBut busy (setBody D key body) D') : SameBut (key :: busy) D D' := by
  refine (List.forall₂_map_left_iff.mp h).imp fun d d' hd => ?_
  split at hd
  · next hkey =>
    refine ⟨hd.head, fun hnot => absurd ?_ hnot⟩
    rw [beq_iff_eq.mp hkey]
    exact List.mem_cons_self
  · exact ⟨hd.head, fun hnot => hd.same fun hmem => hnot (List.mem_cons_of_mem _ hmem)⟩

/-- To write a body back that is there already changes nothing. -/
theorem setBody (h : SameBut busy (setBody D key body) D') (hkey : key ∉ busy) :
    HybridQuery.setBody D' key body = D' := by
  unfold HybridQuery.setBody
  replace h := List.forall₂_map_left_iff.mp h
  induction h with
  | nil => rfl
  | @cons d d' _ _ hd _ ih =>
    rw [List.map_cons, ih]
    split at hd
    · next hfound =>
      have hnot : ({ d with body := body } : FunctionDeclaration).key ∉ busy := by
        change d.key ∉ busy
        rwa [beq_iff_eq.mp hfound]
      rw [hd.same hnot]
      split <;> rfl
    · next hother => rw [if_neg (by rwa [hd.head.key])]

end Declarations.SameBut

/-! ## Passes -/

section
variable {busy : List FunctionKey} {τ υ β γ : Type} {x : τ → Pass (Analysed τ β)} {t : τ}

/-- Where the pass over a tree fails, the pass over what it left fails alike. -/
def Pass.FailsAgain (busy : List FunctionKey) (x : τ → Pass (Analysed τ β)) (t : τ) : Prop :=
  ∀ ⦃D t' e E⦄, (x t).run D = ((t', .error e), E) → ∀ ⦃D'⦄, E.SameBut busy D' →
    (x t').run D' = ((t', .error e), D')

/-- The pass over what a pass over a tree left ends as that one did and changes nothing; where that one
succeeded, it does not look at the declared functions. -/
structure Pass.Repeats (busy : List FunctionKey) (x : τ → Pass (Analysed τ β)) (t : τ) : Prop where
  succeeds : ∀ ⦃D t' b E⦄, (x t).run D = ((t', .ok b), E) → ∀ D', (x t').run D' = ((t', .ok b), D')
  fails : Pass.FailsAgain busy x t

/-- Calls of declared functions: what is declared stays declared, and a call that fails does so again. -/
structure CalleeMode.Repeats (busy : List FunctionKey) (callee : CalleeMode) : Prop where
  keys : ∀ key D, ((callee key).run D).2.map FunctionDeclaration.key = D.map FunctionDeclaration.key
  fails : ∀ ⦃key D e E⦄, (callee key).run D = (.error e, E) → ∀ ⦃D'⦄, E.SameBut busy D' →
    (callee key).run D' = (.error e, D')

namespace Pass

theorem Repeats.done {r : EngineResult β} (h : x t = Pass.done t r) : Repeats busy x t where
  succeeds D t' b E hx D' := by
    rw [h] at hx
    cases hx
    rw [h]
    rfl
  fails D t' e E hx D' _ := by
    rw [h] at hx
    cases hx
    rw [h]
    rfl

theorem FailsAgain.done {r : EngineResult β} (h : x t = Pass.done t r) : FailsAgain busy x t :=
  (Repeats.done h).fails

/-- The trees around parts: their passes fail where those over the parts do. -/
theorem Repeats.failsAgain (h : Repeats busy x t) {X : υ → Pass (Analysed υ γ)} (tree : τ → υ)
    (hX : ∀ t, ∃ value : β → γ, X (tree t) = Pass.wrap (x t) tree value) : FailsAgain busy X (tree t) := by
  intro D u e E hrun D' hD
  obtain ⟨value, hvalue⟩ := hX t
  rw [hvalue, run_wrap] at hrun
  rcases hx : (x t).run D with ⟨⟨t', e' | b⟩, E'⟩
  · rw [hx] at hrun
    cases hrun
    obtain ⟨value', hvalue'⟩ := hX t'
    rw [hvalue', run_wrap, h.fails hx hD]
    rfl
  · rw [hx] at hrun
    cases hrun

/-- The trees around parts whose values depend on no mode. -/
theorem Repeats.wrap (h : Repeats busy x t) {X : υ → Pass (Analysed υ γ)} (tree : τ → υ)
    {value : τ → β → γ} (hX : ∀ t, X (tree t) = Pass.wrap (x t) tree (value t))
    (hvalue : ∀ ⦃D t' b E⦄, (x t).run D = ((t', .ok b), E) → value t' b = value t b) :
    Repeats busy X (tree t) where
  succeeds D u c E hrun D' := by
    rw [hX, run_wrap] at hrun
    rcases hx : (x t).run D with ⟨⟨t', e | b⟩, E'⟩
    · rw [hx] at hrun
      cases hrun
    · rw [hx] at hrun
      cases hrun
      rw [hX, run_wrap, h.succeeds hx D', ← hvalue hx]
      rfl
  fails := h.failsAgain tree fun t => ⟨value t, hX t⟩

/-- A pass with another value. -/
theorem Repeats.map (h : Repeats busy x t) (value : β → γ) :
    Repeats busy (fun t => Pass.wrap (x t) id value) t :=
  h.wrap id (fun _ => rfl) fun _ _ _ _ _ => rfl

/-- Two parts, one after the other: when the pass over the second is repeated, the first one is past. -/
theorem Repeats.andThen (h : Repeats busy x t) {y : β → υ → Pass (Analysed υ γ)} {u : υ}
    (hy : ∀ b, Repeats busy (y b) u) :
    Repeats busy (fun p : τ × υ => Pass.andThen (x p.1) p.2 fun b => y b p.2) (t, u) where
  succeeds D p c F hrun D' := by
    rw [run_andThen] at hrun
    rcases hx : (x t).run D with ⟨⟨t', e | b⟩, E⟩ <;> simp only [hx] at hrun
    · cases hrun
    · rcases hu : (y b u).run E with ⟨⟨u', e | c'⟩, F'⟩ <;> rw [hu] at hrun <;> cases hrun
      rw [run_andThen, h.succeeds hx D']
      simp only [(hy b).succeeds hu D']
  fails D p e F hrun D' hD := by
    rw [run_andThen] at hrun
    rcases hx : (x t).run D with ⟨⟨t', e' | b⟩, E⟩ <;> simp only [hx] at hrun
    · cases hrun
      rw [run_andThen, h.fails hx hD]
    · rcases hu : (y b u).run E with ⟨⟨u', e' | c⟩, F'⟩ <;> rw [hu] at hrun <;> cases hrun
      rw [run_andThen, h.succeeds hx D']
      simp only [(hy b).fails hu hD]

end Pass
end

/-! ## Nodes -/

/-- Keys to group by keep the variables that they bind. -/
theorem analyseGroupKeys_names (callee : CalleeMode) (scopes : List Scope) (position : SourcePosition)
    (keys : List (GroupKey Expression)) (D : Declarations) :
    ((analyseGroupKeys callee scopes position keys).run D).1.1.map (·.variableName) =
      keys.map (·.variableName) := by
  induction keys generalizing D with
  | nil => rfl
  | cons key rest ih =>
    obtain ⟨name, _ | e⟩ := key
    · rw [analyseGroupKeys]
      cases lookupMode scopes name with
      | none => rfl
      | some _ => exact congrArg (name :: ·) (ih D)
    · rw [analyseGroupKeys, Pass.run_wrap, Pass.run_andThen]
      rcases (e.analyse callee scopes).run D with ⟨⟨e', error | mode⟩, E⟩
      · rfl
      · exact congrArg (name :: ·) (ih E)

section
variable {busy : List FunctionKey} {callee : CalleeMode}

/-- An expression is past once its pass succeeded, since it has its mode; only its failures have to be
followed into its parts. -/
theorem ExpressionKind.repeats_expression {kind : ExpressionKind} {scopes : List Scope}
    (h : Pass.FailsAgain busy (ExpressionKind.analyse callee scopes) kind) (position : SourcePosition)
    (slot : ModeSlot) :
    Pass.Repeats busy (Expression.analyse callee scopes) (.mk kind position slot) := by
  obtain ⟨_ | mode⟩ := slot
  · have hrun := Expression.analyse_run callee kind position scopes
    refine ⟨fun D e mode E hx D' => ?_, fun D e error E hx D' hD => ?_⟩
    all_goals
      change (Expression.analyse callee scopes (.mk kind position .empty)).run D = _ at hx
      rw [hrun] at hx
      rcases hk : (kind.analyse callee scopes).run D with ⟨⟨kind', error' | mode'⟩, E'⟩ <;> rw [hk] at hx <;>
        cases hx
    · rw [Expression.analyse_computed rfl]
      rfl
    · rw [Expression.analyse_run, h hk hD]
  · have hrun (D : Declarations) : ((Expression.mk kind position ⟨some mode⟩).analyse callee scopes).run D =
        ((.mk kind position ⟨some mode⟩, .ok mode), D) := Expression.analyse_computed rfl scopes D
    refine ⟨fun D e mode E hx D' => ?_, fun D e error E hx => ?_⟩
    all_goals
      rw [hrun] at hx
      cases hx
    exact hrun D'

/-- An expression whose pass succeeded has a mode. -/
theorem Expression.analyse_computes {e e' : Expression} {scopes : List Scope} {mode : Mode}
    {D E : Declarations} (hx : (e.analyse callee scopes).run D = ((e', .ok mode), E)) :
    e'.slot.isComputed = true := by
  obtain ⟨kind, position, ⟨_ | mode'⟩⟩ := e
  · change (Expression.analyse callee scopes (.mk kind position .empty)).run D = _ at hx
    rw [analyse_run] at hx
    rcases hk : (kind.analyse callee scopes).run D with ⟨⟨kind', error | mode'⟩, E'⟩ <;> rw [hk] at hx <;>
      cases hx
    rfl
  · rw [analyse_computed rfl] at hx
    cases hx
    rfl

/-- Whether a function is declared is asked before it is called; the answer is the same afterwards. -/
theorem CalleeMode.Repeats.callMode (h : callee.Repeats busy) {name : String} {arity : Nat} {gap : Bool}
    {D E D' : Declarations} {e : EngineError}
    (hx : (callMode callee name arity gap (D.any (·.key == (name, arity)))).run D = (.error e, E))
    (hD : E.SameBut busy D') :
    (HybridQuery.callMode callee name arity gap (D'.any (·.key == (name, arity)))).run D' =
      (.error e, D') := by
  unfold HybridQuery.callMode at hx ⊢
  cases hbuiltin : Builtin.find? name arity with
  | some b =>
    rw [hbuiltin] at hx
    cases hx
  | none =>
    simp only [hbuiltin] at hx ⊢
    cases hdeclared : D.any (·.key == (name, arity)) with
    | false =>
      rw [hdeclared] at hx
      cases hx
      rw [hD.any, hdeclared]
      rfl
    | true =>
      rw [hdeclared] at hx
      cases gap with
      | true => cases hx
      | false =>
        have hkeys : E.map FunctionDeclaration.key = D.map FunctionDeclaration.key := by
          have := h.keys (name, arity) D
          rwa [show (callee (name, arity)).run D = _ from hx] at this
        have hstill : E.any (·.key == (name, arity)) = true := by
          have hany (F : Declarations) : F.any (·.key == (name, arity)) =
              (F.map FunctionDeclaration.key).any (· == (name, arity)) := by
            rw [List.any_map]
            rfl
          rw [hany, hkeys, ← hany, hdeclared]
        rw [hD.any, hstill]
        exact h.fails hx hD

/-- A call fails in one of its arguments, or at what it calls; then its arguments are past. -/
theorem ExpressionKind.functionCall_failsAgain (h : callee.Repeats busy) (name : String)
    {given : List (Option Expression)} {scopes : List Scope}
    (hgiven : Pass.Repeats busy (analyseArguments callee scopes) given) :
    Pass.FailsAgain busy (ExpressionKind.analyse callee scopes) (.functionCall name given) := by
  intro D kind e E hrun D' hD
  rw [functionCall_run] at hrun
  rcases hx : (analyseArguments callee scopes given).run D with ⟨⟨given', e' | b⟩, E'⟩ <;>
    simp only [hx] at hrun
  · cases hrun
    rw [functionCall_run, hgiven.fails hx hD]
  · obtain ⟨hkind, rfl⟩ := Prod.mk.inj hrun
    obtain ⟨rfl, hcalled⟩ := Prod.mk.inj hkind
    rw [functionCall_run, hgiven.succeeds hx D']
    dsimp only
    rw [h.callMode (Prod.ext hcalled rfl) hD]

theorem ExpressionKind.functionRef_failsAgain (name : String) (arity : Nat) (scopes : List Scope) :
    Pass.FailsAgain busy (ExpressionKind.analyse callee scopes) (.functionRef name arity) := by
  intro D kind e E hrun D' hD
  rw [functionRef_run] at hrun
  obtain ⟨hkind, rfl⟩ := Prod.mk.inj hrun
  obtain ⟨rfl, hknown⟩ := Prod.mk.inj hkind
  rw [functionRef_run, hD.any, hknown]

/-- The first of several clauses is past, or it fails again. -/
theorem ClauseKind.repeats_clauses {kind : ClauseKind} {position : SourcePosition} {isFirst : Bool}
    {scope : ClauseScope} {rest : List Clause}
    (h : Pass.Repeats busy (ClauseKind.analyse callee isFirst scope position) kind)
    (hrest : ∀ scope, Pass.Repeats busy (analyseClauses callee false scope) rest) (slot : ModeSlot) :
    Pass.Repeats busy (analyseClauses callee isFirst scope) (.mk kind position slot :: rest) where
  succeeds D clauses after F hrun D' := by
    rw [analyseClauses_cons_run] at hrun
    rcases hx : (kind.analyse callee isFirst scope position).run D with ⟨⟨kind', e | scope'⟩, E⟩ <;>
      simp only [hx] at hrun
    · cases hrun
    · rcases hr : (analyseClauses callee false scope' rest).run E with ⟨⟨rest', e | after'⟩, F'⟩ <;>
        rw [hr] at hrun <;> cases hrun
      rw [analyseClauses_cons_run, h.succeeds hx D']
      simp only [(hrest scope').succeeds hr D']
      rfl
  fails D clauses e F hrun D' hD := by
    rw [analyseClauses_cons_run] at hrun
    rcases hx : (kind.analyse callee isFirst scope position).run D with ⟨⟨kind', e' | scope'⟩, E⟩ <;>
      simp only [hx] at hrun
    · cases hrun
      rw [analyseClauses_cons_run, h.fails hx hD]
    · rcases hr : (analyseClauses callee false scope' rest).run E with ⟨⟨rest', e' | after'⟩, F'⟩ <;>
        rw [hr] at hrun <;> cases hrun
      rw [analyseClauses_cons_run, h.succeeds hx D']
      simp only [(hrest scope').fails hr hD]
      rfl

mutual
/-- The pass over an expression. -/
theorem Expression.repeats (h : callee.Repeats busy) : ∀ (e : Expression) (scopes : List Scope),
    Pass.Repeats busy (Expression.analyse callee scopes) e
  | .mk kind position slot, scopes =>
    ExpressionKind.repeats_expression (ExpressionKind.failsAgain h kind scopes) position slot

theorem ExpressionKind.failsAgain (h : callee.Repeats busy) : ∀ (kind : ExpressionKind)
    (scopes : List Scope), Pass.FailsAgain busy (ExpressionKind.analyse callee scopes) kind
  | .literal _, _ | .contextItem, _ | .varRef _, _ | .array none, _ => .done (by rw [ExpressionKind.analyse])
  | .functionRef name arity, scopes => ExpressionKind.functionRef_failsAgain name arity scopes
  | .sequence members, scopes =>
    (members_repeat h members scopes).failsAgain ExpressionKind.sequence fun _ =>
      ⟨_, by rw [ExpressionKind.analyse]⟩
  | .arithmetic op left right, scopes =>
    (Pass.Repeats.andThen (Expression.repeats h left scopes) fun _ =>
      Expression.repeats h right scopes).failsAgain
      (fun (left, right) => ExpressionKind.arithmetic op left right) fun _ =>
        ⟨_, by rw [ExpressionKind.analyse]⟩
  | .comparison op left right, scopes =>
    (Pass.Repeats.andThen (Expression.repeats h left scopes) fun _ =>
      Expression.repeats h right scopes).failsAgain
      (fun (left, right) => ExpressionKind.comparison op left right) fun _ =>
        ⟨_, by rw [ExpressionKind.analyse]⟩
  | .logical op left right, scopes =>
    (Pass.Repeats.andThen (Expression.repeats h left scopes) fun _ =>
      Expression.repeats h right scopes).failsAgain
      (fun (left, right) => ExpressionKind.logical op left right) fun _ =>
        ⟨_, by rw [ExpressionKind.analyse]⟩
  | .range first last, scopes =>
    (Pass.Repeats.andThen (Expression.repeats h first scopes) fun _ =>
      Expression.repeats h last scopes).failsAgain
      (fun (first, last) => ExpressionKind.range first last) fun _ =>
        ⟨_, by rw [ExpressionKind.analyse]⟩
  | .not operand, scopes =>
    (Expression.repeats h operand scopes).failsAgain ExpressionKind.not fun _ =>
      ⟨_, by rw [ExpressionKind.analyse]⟩
  | .conditional condition yes no, scopes =>
    (Pass.Repeats.andThen (Expression.repeats h condition scopes) fun _ =>
      Pass.Repeats.andThen (Expression.repeats h yes scopes) fun _ =>
        Expression.repeats h no scopes).failsAgain
      (fun (condition, yes, no) => ExpressionKind.conditional condition yes no) fun _ =>
        ⟨_, by rw [ExpressionKind.analyse]⟩
  | .object pairs, scopes =>
    (pairs_repeat h pairs scopes).failsAgain ExpressionKind.object fun _ =>
      ⟨_, by rw [ExpressionKind.analyse]⟩
  | .array (some members), scopes =>
    (Expression.repeats h members scopes).failsAgain (fun members => ExpressionKind.array (some members))
      fun _ => ⟨_, by rw [ExpressionKind.analyse]⟩
  | .objectLookup object key, scopes =>
    (Pass.Repeats.andThen (Expression.repeats h object scopes) fun input =>
      (Expression.repeats h key scopes).map fun _ => input).failsAgain
      (fun (object, key) => ExpressionKind.objectLookup object key) fun _ =>
        ⟨_, by rw [ExpressionKind.analyse]⟩
  | .arrayLookup array index, scopes =>
    (Pass.Repeats.andThen (Expression.repeats h array scopes) fun input =>
      (Expression.repeats h index scopes).map fun _ => input).failsAgain
      (fun (array, index) => ExpressionKind.arrayLookup array index) fun _ =>
        ⟨_, by rw [ExpressionKind.analyse]⟩
  | .arrayUnbox array, scopes =>
    (Expression.repeats h array scopes).failsAgain ExpressionKind.arrayUnbox fun _ =>
      ⟨_, by rw [ExpressionKind.analyse]⟩
  | .filter sequence predicate, scopes =>
    (Pass.Repeats.andThen (Expression.repeats h sequence scopes) fun input =>
      (Expression.repeats h predicate ([(contextItemName, .host)] :: scopes)).map fun _ => input).failsAgain
      (fun (sequence, predicate) => ExpressionKind.filter sequence predicate) fun _ =>
        ⟨_, by rw [ExpressionKind.analyse]⟩
  | .functionCall name given, scopes =>
    ExpressionKind.functionCall_failsAgain h name (arguments_repeat h given scopes)
  | .dynamicCall function given, scopes =>
    (Pass.Repeats.andThen (Expression.repeats h function scopes) fun _ =>
      arguments_repeat h given scopes).failsAgain
      (fun (function, given) => ExpressionKind.dynamicCall function given) fun _ =>
        ⟨_, by rw [ExpressionKind.analyse]⟩
  | .inlineFunction parameters returnType body, scopes =>
    (Expression.repeats h body (parameterScope parameters :: scopes)).failsAgain
      (ExpressionKind.inlineFunction parameters returnType) fun _ => ⟨_, by rw [ExpressionKind.analyse]⟩
  | .flwor clauses result, scopes =>
    (Pass.Repeats.andThen (clauses_repeat h clauses true ⟨[] :: scopes, .host, []⟩) fun scope =>
      (Expression.repeats h result scope.scopes).map fun _ => scope.stream).failsAgain
      (fun (clauses, result) => ExpressionKind.flwor clauses result) fun _ =>
        ⟨_, by rw [ExpressionKind.analyse]⟩

theorem members_repeat (h : callee.Repeats busy) : ∀ (members : List Expression)
    (scopes : List Scope), Pass.Repeats busy (analyseMembers callee scopes) members
  | [], _ => .done rfl
  | e :: rest, scopes =>
    (Pass.Repeats.andThen (Expression.repeats h e scopes) fun mode =>
      (members_repeat h rest scopes).map fun all => mode.isParallel && all).wrap
      (fun (e, rest) => e :: rest) (fun _ => by rw [analyseMembers]) fun _ _ _ _ _ => rfl

theorem pairs_repeat (h : callee.Repeats busy) : ∀ (pairs : List (Expression × Expression))
    (scopes : List Scope), Pass.Repeats busy (analysePairs callee scopes) pairs
  | [], _ => .done rfl
  | (key, value) :: rest, scopes =>
    (Pass.Repeats.andThen (Expression.repeats h key scopes) fun _ =>
      Pass.Repeats.andThen (Expression.repeats h value scopes) fun _ => pairs_repeat h rest scopes).wrap
      (fun (key, value, rest) => (key, value) :: rest) (fun _ => by rw [analysePairs]) fun _ _ _ _ _ => rfl

theorem arguments_repeat (h : callee.Repeats busy) : ∀ (given : List (Option Expression))
    (scopes : List Scope), Pass.Repeats busy (analyseArguments callee scopes) given
  | [], _ => .done rfl
  | none :: rest, scopes =>
    (arguments_repeat h rest scopes).wrap (none :: ·) (fun _ => by rw [analyseArguments])
      fun _ _ _ _ _ => rfl
  | some e :: rest, scopes =>
    (Pass.Repeats.andThen (Expression.repeats h e scopes) fun _ => arguments_repeat h rest scopes).wrap
      (fun (e, rest) => some e :: rest) (fun _ => by rw [analyseArguments]) fun _ _ _ _ _ => rfl

theorem clauses_repeat (h : callee.Repeats busy) : ∀ (clauses : List Clause) (isFirst : Bool)
    (scope : ClauseScope), Pass.Repeats busy (analyseClauses callee isFirst scope) clauses
  | [], _, _ => .done rfl
  | .mk kind position slot :: rest, isFirst, scope =>
    ClauseKind.repeats_clauses (ClauseKind.repeats h kind isFirst scope position)
      (fun scope => clauses_repeat h rest false scope) slot

theorem ClauseKind.repeats (h : callee.Repeats busy) : ∀ (kind : ClauseKind) (isFirst : Bool)
    (scope : ClauseScope) (position : SourcePosition),
    Pass.Repeats busy (ClauseKind.analyse callee isFirst scope position) kind
  | .forEach name place allowingEmpty source, isFirst, scope, _ =>
    (Expression.repeats h source scope.scopes).wrap (ClauseKind.forEach name place allowingEmpty)
      (fun _ => by rw [ClauseKind.analyse]) fun _ _ _ _ _ => rfl
  | .letBe name value, _, scope, _ =>
    (Expression.repeats h value scope.scopes).wrap (ClauseKind.letBe name)
      (fun _ => by rw [ClauseKind.analyse]) fun _ _ _ _ _ => rfl
  | .keepWhere condition, _, scope, _ =>
    (Expression.repeats h condition scope.scopes).wrap ClauseKind.keepWhere
      (fun _ => by rw [ClauseKind.analyse]) fun _ _ _ _ _ => rfl
  | .orderBy keys, _, scope, _ =>
    (orderKeys_repeat h keys scope.scopes).wrap ClauseKind.orderBy
      (fun _ => by rw [ClauseKind.analyse]) fun _ _ _ _ _ => rfl
  | .groupBy keys, _, scope, position =>
    (groupKeys_repeat h keys scope.scopes position).wrap ClauseKind.groupBy
      (fun _ => by rw [ClauseKind.analyse]) fun D keys' _ E hx => by
        have hnames := analyseGroupKeys_names callee scope.scopes position keys D
        rw [hx] at hnames
        exact congrArg scope.afterGrouping hnames
  | .count name, _, _, _ => .done rfl

theorem orderKeys_repeat (h : callee.Repeats busy) : ∀ (keys : List (OrderKey Expression))
    (scopes : List Scope), Pass.Repeats busy (analyseOrderKeys callee scopes) keys
  | [], _ => .done rfl
  | ⟨e, descending, empty⟩ :: rest, scopes =>
    (Pass.Repeats.andThen (Expression.repeats h e scopes) fun _ => orderKeys_repeat h rest scopes).wrap
      (fun (e, rest) => OrderKey.mk e descending empty :: rest) (fun _ => by rw [analyseOrderKeys])
      fun _ _ _ _ _ => rfl

theorem groupKeys_repeat (h : callee.Repeats busy) : ∀ (keys : List (GroupKey Expression))
    (scopes : List Scope) (position : SourcePosition),
    Pass.Repeats busy (analyseGroupKeys callee scopes position) keys
  | [], _, _ => .done rfl
  | ⟨name, none⟩ :: rest, scopes, position => by
    cases hname : lookupMode scopes name with
    | none => exact .done (by rw [analyseGroupKeys, hname])
    | some _ =>
      have hcons (rest) : analyseGroupKeys callee scopes position (⟨name, none⟩ :: rest) =
          Pass.wrap (analyseGroupKeys callee scopes position rest) (⟨name, none⟩ :: ·) id := by
        rw [analyseGroupKeys, hname]
      exact (groupKeys_repeat h rest scopes position).wrap (GroupKey.mk name none :: ·) hcons
        fun _ _ _ _ _ => rfl
  | ⟨name, some e⟩ :: rest, scopes, position =>
    (Pass.Repeats.andThen (Expression.repeats h e scopes) fun _ =>
      groupKeys_repeat h rest scopes position).wrap
      (fun (e, rest) => GroupKey.mk name (some e) :: rest) (fun _ => by rw [analyseGroupKeys])
      fun _ _ _ _ _ => rfl
end

end
end HybridQuery
