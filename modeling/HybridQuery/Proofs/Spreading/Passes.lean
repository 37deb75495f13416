import HybridQuery.Proofs.Passes
import HybridQuery.Proofs.Spreading.Syntax

/-!
# Analysing a module and one that spreads it

Mode analysis is run on a module and on one in which parts are handed to `parallelize`. Both runs meet
the same functions in the same order, so that they can be compared step by step. What they make of the
modes agrees only if no `let` of a distributed value has been moved to a distributed stream; this is
known of the finished modules alone, and therefore is assumed step by step of what is finished already.

* `Kept`: the `let` clauses of two analysed trees agree.
* `Declarations.Matched`: the declared functions of the two modules, of which some are analysed already.
* `Pass.Carries`: what a pass gives for the first module it gives for the second one. Its rules follow
  the ways in which passes are put together.
-/

namespace HybridQuery

/-- What a result in two steps comes from. -/
theorem EngineResult.bind_eq_ok {α β : Type} {x : EngineResult α} {f : α → EngineResult β} {b : β} :
    x >>= f = .ok b ↔ ∃ a, x = .ok a ∧ f a = .ok b := by
  cases x <;> simp [bind, Except.bind]

theorem EngineResult.pure_eq_ok {α : Type} {a b : α} : (pure a : EngineResult α) = .ok b ↔ a = b := by
  simp [pure, Except.pure]

/-! ## `let` clauses of parts -/

/-- Parts of modules with `let` clauses in them. -/
class Lets (τ : Type) where
  /-- The modes of all `let` clauses and of what they bind, in order. -/
  lets : τ → List (Mode × Mode)

export Lets (lets)

section
variable {τ υ : Type} [Lets τ] [Lets υ]

instance : Lets (List τ) := ⟨fun l => l.flatMap lets⟩

instance : Lets (Option τ) := ⟨fun o => o.elim [] lets⟩

instance : Lets (τ × υ) := ⟨fun p => lets p.1 ++ lets p.2⟩

@[simp] theorem lets_nil : lets ([] : List τ) = [] := rfl

@[simp] theorem lets_cons (t : τ) (l : List τ) : lets (t :: l) = lets t ++ lets l := rfl

@[simp] theorem lets_none : lets (none : Option τ) = [] := rfl

@[simp] theorem lets_some (t : τ) : lets (some t) = lets t := rfl

@[simp] theorem lets_pair (t : τ) (u : υ) : lets (t, u) = lets t ++ lets u := rfl

end

/-- The modes of all `let` clauses below an outline. -/
def Outline.lets (o : Outline) : List (Mode × Mode) := o.preorder.filterMap Outline.let?

instance : Lets Expression := ⟨Expression.lets⟩

instance : Lets ExpressionKind := ⟨fun kind => kind.outlines.flatMap Outline.lets⟩

instance : Lets Clause := ⟨fun clause => clause.outline.lets⟩

instance : Lets ClauseKind := ⟨fun kind => kind.outlines.flatMap Outline.lets⟩

namespace Outline

theorem map_allWithDepth (depth : Nat) (os : List Outline) :
    (allWithDepth depth os).map (·.2) = os.flatMap fun o => (withDepth depth o).map (·.2) := by
  induction os with
  | nil => rfl
  | cons o os ih => rw [allWithDepth, List.map_append, ih, List.flatMap_cons]

mutual
theorem map_withDepth (depth depth' : Nat) :
    ∀ o : Outline, (withDepth depth o).map (·.2) = (withDepth depth' o).map (·.2)
  | .node name mode position children => by
    simp only [withDepth, List.map_cons]
    rw [map_allWithDepth_eq (depth + 1) (depth' + 1) children]

theorem map_allWithDepth_eq (depth depth' : Nat) :
    ∀ os : List Outline, (allWithDepth depth os).map (·.2) = (allWithDepth depth' os).map (·.2)
  | [] => rfl
  | o :: rest => by
    simp only [allWithDepth, List.map_append]
    rw [map_withDepth depth depth' o, map_allWithDepth_eq depth depth' rest]
end

theorem preorder_node (name : String) (mode : Mode) (position : SourcePosition)
    (children : List Outline) :
    (node name mode position children).preorder =
      node name mode position children :: children.flatMap preorder := by
  rw [preorder, withDepth, List.map_cons, map_allWithDepth]
  refine congrArg _ (List.flatMap_congr fun o _ => ?_)
  exact map_withDepth _ _ o

theorem lets_node (name : String) (mode : Mode) (position : SourcePosition) (children : List Outline) :
    (node name mode position children).lets =
      (let? (node name mode position children)).toList ++ children.flatMap lets := by
  rw [lets, preorder_node, List.filterMap_cons, List.filterMap_flatMap]
  cases let? (node name mode position children) <;> rfl

end Outline

theorem lets_memberOutlines (es : List Expression) :
    (memberOutlines es).flatMap Outline.lets = lets es := by
  induction es with
  | nil => rfl
  | cons e es ih => rw [memberOutlines, List.flatMap_cons, ih]; rfl

theorem lets_pairOutlines (ps : List (Expression × Expression)) :
    (pairOutlines ps).flatMap Outline.lets = lets ps := by
  induction ps with
  | nil => rfl
  | cons p ps ih =>
    rw [pairOutlines, List.flatMap_cons, List.flatMap_cons, ih, lets_cons, ← List.append_assoc]
    rfl

theorem lets_argumentOutlines (as : List (Option Expression)) :
    (argumentOutlines as).flatMap Outline.lets = lets as := by
  induction as with
  | nil => rfl
  | cons a as ih =>
    cases a with
    | none => rw [argumentOutlines, ih]; rfl
    | some e => rw [argumentOutlines, List.flatMap_cons, ih]; rfl

theorem lets_clauseOutlines (cs : List Clause) :
    (clauseOutlines cs).flatMap Outline.lets = lets cs := by
  induction cs with
  | nil => rfl
  | cons c cs ih => rw [clauseOutlines, List.flatMap_cons, ih]; rfl

/-- An expression is no `let` clause itself. -/
theorem lets_expression (kind : ExpressionKind) (position : SourcePosition) (slot : ModeSlot) :
    lets (Expression.mk kind position slot) = lets kind := by
  change Outline.lets _ = _
  rw [Expression.outline, Outline.lets_node]
  cases kind <;> rfl

/-- The modes that a `let` clause itself shows. -/
def ClauseKind.ownLet (mode : Mode) : ClauseKind → List (Mode × Mode)
  | .letBe _ value => [(mode, value.slot.getD)]
  | _ => []

theorem lets_clause (kind : ClauseKind) (position : SourcePosition) (slot : ModeSlot) :
    lets (Clause.mk kind position slot) = kind.ownLet slot.getD ++ lets kind := by
  change Outline.lets _ = _
  rw [Clause.outline, Outline.lets_node]
  cases kind with
  | letBe name value => cases value; rfl
  | _ => rfl

/-! ## Finished parts -/

/-- The `let` clauses of two finished parts agree. -/
def Kept {τ : Type} [Lets τ] (t' t : τ) : Prop := List.Forall₂ KeepsLet (lets t') (lets t)

section
variable {τ υ : Type} [Lets τ] [Lets υ]

/-- Lists of which the members are related one by one. -/
theorem forall₂_of_mem {α β : Type} {R S : α → β → Prop} {l : List α} {k : List β}
    (h : List.Forall₂ R l k) (hS : ∀ a ∈ l, ∀ b, R a b → S a b) : List.Forall₂ S l k := by
  induction h with
  | nil => exact .nil
  | cons hab _ ih => exact .cons (hS _ (by simp) _ hab) (ih fun a ha => hS a (by simp [ha]))

theorem forall₂_of_append {α β : Type} {R : α → β → Prop} {l k : List α} {l' k' : List β}
    (hlen : l.length = l'.length) (h : List.Forall₂ R (l ++ k) (l' ++ k')) :
    List.Forall₂ R l l' ∧ List.Forall₂ R k k' := by
  induction l generalizing l' with
  | nil =>
    cases l' with
    | nil => exact ⟨.nil, h⟩
    | cons b l' => simp at hlen
  | cons a l ih =>
    cases l' with
    | nil => simp at hlen
    | cons b l' =>
      obtain ⟨hab, h⟩ := List.forall₂_cons.mp h
      obtain ⟨hl, hk⟩ := ih (by simpa using hlen) h
      exact ⟨.cons hab hl, hk⟩

theorem Kept.split {t' t : τ} {u' u : υ} (hlen : (lets t').length = (lets t).length)
    (h : Kept (t', u') (t, u)) : Kept t' t ∧ Kept u' u := forall₂_of_append hlen h

end

/-- An analysed expression beside one that it spreads: the modes, and the plans they are compiled to. -/
structure Expression.Spreads (calls : FunctionKey → Prop) (e' e : Expression) : Prop where
  modes : e'.slot.getD.Spreads e.slot.getD
  plans : ∀ c p', e'.compile c = .ok p' →
    ∃ p, e.compile c = .ok p ∧ p'.Spread calls p ∧ p.mode = e.slot.getD

/-! ## Declared functions -/

namespace Declarations

/-- Functions of which those that are analysed keep their `let` clauses, and are distributed only if
`calls` says so. -/
structure Fine (calls : FunctionKey → Prop) (D' D : Declarations) : Prop where
  kept : List.Forall₂ (fun d' d => d.body.slot.isComputed = true → Kept d'.body d.body) D' D
  calls : ∀ d ∈ D, d.body.slot.value = some .rows → calls d.key

/-- Bodies of functions that are both analysed. -/
structure Finished (D' D : Declarations) (e' e : Expression) : Prop where
  computed' : e'.slot.isComputed = true
  computed : e.slot.isComputed = true
  lets : (lets e').length = (lets e).length
  spreads : ∀ calls, Fine calls D' D → Kept e' e → e'.Spreads calls e

/-- A function of each module; either both are analysed or none is. -/
structure Paired (D' D : Declarations) (d' d : FunctionDeclaration) : Prop where
  name : d'.name = d.name
  parameters : d'.parameters = d.parameters
  returnType : d'.returnType = d.returnType
  position : d'.position = d.position
  body : d'.body.Wraps d.body ∨ Finished D' D d'.body d.body

/-- The functions of the two modules. Those in `K` are being analysed: they are not analysed yet, and
the passes in between leave them alone. -/
structure Matched (K : List FunctionKey) (D' D : Declarations) : Prop where
  paired : List.Forall₂ (Paired D' D) D' D
  distinct : (D.map FunctionDeclaration.key).Nodup
  started : ∀ d ∈ D, d.key ∈ K → d.body.slot.isComputed = false

/-- The same functions later on: what is said of all of them then is said of them now. -/
structure Grows (D' D E' E : Declarations) : Prop where
  fine : ∀ {calls}, Fine calls E' E → Fine calls D' D
  keys : E.map FunctionDeclaration.key = D.map FunctionDeclaration.key
  stays : ∀ d ∈ D, d.body.slot.isComputed = true → d ∈ E

theorem Grows.refl (D' D : Declarations) : Grows D' D D' D := ⟨id, rfl, fun _ hd _ => hd⟩

theorem Grows.trans {D' D E' E F' F : Declarations} (h : Grows D' D E' E) (k : Grows E' E F' F) :
    Grows D' D F' F :=
  ⟨fun hf => h.fine (k.fine hf), k.keys.trans h.keys, fun d hd hc => k.stays d (h.stays d hd hc) hc⟩

theorem Finished.grow {D' D E' E : Declarations} {e' e : Expression} (h : Finished D' D e' e)
    (hg : Grows D' D E' E) : Finished E' E e' e :=
  ⟨h.computed', h.computed, h.lets, fun calls hf => h.spreads calls (hg.fine hf)⟩

theorem Paired.grow {D' D E' E : Declarations} {d' d : FunctionDeclaration} (h : Paired D' D d' d)
    (hg : Grows D' D E' E) : Paired E' E d' d :=
  ⟨h.name, h.parameters, h.returnType, h.position,
    h.body.imp_right fun hb => hb.grow hg⟩

theorem Paired.key {D' D : Declarations} {d' d : FunctionDeclaration} (h : Paired D' D d' d) :
    d'.key = d.key := by
  rw [FunctionDeclaration.key, FunctionDeclaration.key, FunctionDeclaration.arity,
    FunctionDeclaration.arity, h.name, h.parameters]

end Declarations

open Declarations

/-! ## Passes -/

namespace Pass

/-- What a pass over a part of the first module gives, a pass over the part of the second one gives
too. `U` is what is known of the outcomes at once, `Q` what is known if all `let` clauses are kept. -/
def Carries {τ β : Type} [Lets τ] (K : List FunctionKey) (x' x : Pass (Analysed τ β)) (U : τ → β → τ → β → Prop)
    (Q : (FunctionKey → Prop) → τ → β → τ → β → Prop) : Prop :=
  ∀ D' D, Matched K D' D → ∀ t' b' E', x'.run D' = ((t', .ok b'), E') →
    ∃ t b E, x.run D = ((t, .ok b), E) ∧ Matched K E' E ∧ Grows D' D E' E ∧ U t' b' t b ∧
      (lets t').length = (lets t).length ∧
      ∀ calls, Fine calls E' E → Kept t' t → Q calls t' b' t b

variable {τ υ β γ : Type} [Lets τ] [Lets υ] {K : List FunctionKey}

theorem Carries.mono {x' x : Pass (Analysed τ β)} {U V : τ → β → τ → β → Prop}
    {Q R : (FunctionKey → Prop) → τ → β → τ → β → Prop} (h : Carries K x' x U Q)
    (hU : ∀ t' b' t b, U t' b' t b → V t' b' t b)
    (hQ : ∀ calls t' b' t b, U t' b' t b → Q calls t' b' t b → R calls t' b' t b) :
    Carries K x' x V R := by
  intro D' D hD t' b' E' hx'
  obtain ⟨t, b, E, hx, hE, hg, hu, hl, hq⟩ := h D' D hD t' b' E' hx'
  exact ⟨t, b, E, hx, hE, hg, hU _ _ _ _ hu, hl, fun calls hf hk => hQ _ _ _ _ _ hu (hq calls hf hk)⟩

theorem Carries.done {t' t : τ} {r' r : EngineResult β} {U : τ → β → τ → β → Prop}
    {Q : (FunctionKey → Prop) → τ → β → τ → β → Prop} (hl : (lets t').length = (lets t).length)
    (h : ∀ b', r' = .ok b' → ∃ b, r = .ok b ∧ U t' b' t b ∧ ∀ calls, Q calls t' b' t b) :
    Carries K (Pass.done t' r') (Pass.done t r) U Q := by
  intro D' D hD _ b' _ hx'
  cases hx'
  obtain ⟨b, rfl, hu, hq⟩ := h b' rfl
  exact ⟨t, b, D, rfl, hD, .refl D' D, hu, hl, fun calls _ _ => hq calls⟩

/-- The tree is rebuilt around an analysed part. -/
theorem Carries.wrap {x' x : Pass (Analysed τ β)} {tree : τ → υ} {value' value : β → γ}
    {U : τ → β → τ → β → Prop} {V : υ → γ → υ → γ → Prop}
    {Q : (FunctionKey → Prop) → τ → β → τ → β → Prop}
    {R : (FunctionKey → Prop) → υ → γ → υ → γ → Prop} (htree : ∀ t, lets (tree t) = lets t)
    (h : Carries K x' x U Q)
    (hU : ∀ t' b' t b, U t' b' t b → V (tree t') (value' b') (tree t) (value b))
    (hQ : ∀ calls t' b' t b, U t' b' t b → Q calls t' b' t b →
      R calls (tree t') (value' b') (tree t) (value b)) :
    Carries K (Pass.wrap x' tree value') (Pass.wrap x tree value) V R := by
  intro D' D hD u' c' E' hw
  rw [run_wrap] at hw
  rcases hx' : x'.run D' with ⟨⟨t', r'⟩, F'⟩
  rw [hx'] at hw
  cases r' with
  | error e => cases hw
  | ok b' =>
    cases hw
    obtain ⟨t, b, E, hx, hE, hg, hu, hl, hq⟩ := h D' D hD t' b' _ hx'
    refine ⟨tree t, value b, E, by rw [run_wrap, hx]; rfl, hE, hg, hU _ _ _ _ hu, ?_, ?_⟩
    · rw [htree, htree, hl]
    · intro calls hf hk
      refine hQ calls _ _ _ _ hu (hq calls hf ?_)
      rwa [Kept, htree, htree] at hk

/-- A first part and then a second one. -/
theorem Carries.andThen {x' x : Pass (Analysed τ β)} {u' u : υ} {y' y : β → Pass (Analysed υ γ)}
    {U : τ → β → τ → β → Prop} {Q : (FunctionKey → Prop) → τ → β → τ → β → Prop}
    {V : β → β → υ → γ → υ → γ → Prop} {R : β → β → (FunctionKey → Prop) → υ → γ → υ → γ → Prop}
    (h : Carries K x' x U Q)
    (hy : ∀ t' b' t b, U t' b' t b → Carries K (y' b') (y b) (V b' b) (R b' b)) :
    Carries K (Pass.andThen x' u' y') (Pass.andThen x u y)
      (fun t' c' t c => ∃ b' b, U t'.1 b' t.1 b ∧ V b' b t'.2 c' t.2 c)
      (fun calls t' c' t c => ∃ b' b, U t'.1 b' t.1 b ∧ V b' b t'.2 c' t.2 c ∧
        Q calls t'.1 b' t.1 b ∧ R b' b calls t'.2 c' t.2 c) := by
  intro D' D hD t' c' E' hrun'
  have hok (z : Pass (Analysed τ β)) (v : υ) (w : β → Pass (Analysed υ γ)) {F G : Declarations} {t : τ}
      {b : β} (hz : z.run F = ((t, .ok b), G)) :
      (Pass.andThen z v w).run F = (((t, ((w b).run G).1.1), ((w b).run G).1.2), ((w b).run G).2) := by
    rw [Pass.andThen, StateT.run_bind, hz]
    rfl
  rcases hx' : x'.run D' with ⟨⟨s', r'⟩, F'⟩
  cases r' with
  | error e =>
    have herr : (Pass.andThen x' u' y').run D' = (((s', u'), .error e), F') := by
      rw [Pass.andThen, StateT.run_bind, hx']
      rfl
    rw [herr] at hrun'
    cases hrun'
  | ok b' =>
    rw [hok x' u' y' hx'] at hrun'
    obtain ⟨s, b, F, hx, hF, hg, hu, hl, hq⟩ := h D' D hD s' b' F' hx'
    rcases hy' : (y' b').run F' with ⟨⟨v', q'⟩, G'⟩
    rw [hy'] at hrun'
    cases hrun'
    obtain ⟨v, c, E, hye, hE, hg₂, hv, hl₂, hr⟩ := hy _ _ _ _ hu F' F hF v' _ _ hy'
    refine ⟨(s, v), c, E, by rw [hok x u y hx, hye], hE, hg.trans hg₂, ⟨b', b, hu, hv⟩, ?_, ?_⟩
    · simp [hl, hl₂]
    · intro calls hf hk
      obtain ⟨hk, hk₂⟩ := hk.split hl
      exact ⟨b', b, hu, hv, hq calls (hg₂.fine hf) hk, hr calls hf hk₂⟩

end Pass
end HybridQuery
