import HybridQuery.Proofs.Lifting.Bindings
import HybridQuery.Proofs.Spreading.Items

/-!
# Evaluating spread plans

Like values are bound in like tuples, scopes and contexts. `PlanEvaluator.Carries` says that the evaluations of
spread plans by one evaluator carry over to the evaluations of the plans by another. Whatever is made of
evaluations then carries over too; there is one lemma for each function of the evaluator.

* `Tuple.Like.bind`, `BindingsOf.Like.bind`, `Context.Like.child`: like values are bound in like tuples,
  scopes and contexts.
* `Context.Like.lookup`, `Context.Like.snapshot`: what like contexts show.
* `Invocation.Like`, `Invocation.of_like`: calls of like functions with like arguments.
-/

namespace HybridQuery

variable {S : Plan → Plan → Prop}

/-! ## Scopes and tuples -/

namespace BindingsOf

variable {b' b o' o : Bindings} {v' v : Value Item}

theorem Like.empty : BindingsOf.Like S .empty .empty := .nil

theorem Like.bind (h : b'.Like S b) (name : String) (hv : ValueLike S v' v) :
    (b'.bind name v').Like S (b.bind name v) := bind_keyed h name hv

theorem Like.merge (h : b'.Like S b) (ho : o'.Like S o) : (b'.merge o').Like S (b.merge o) :=
  foldl_keyed ho h

theorem Like.get? (h : b'.Like S b) (name : String) :
    Option.Rel (ValueLike S) (b'.get? name) (b.get? name) := Keyed.lookup h name

end BindingsOf

namespace Tuple

variable {t' t : Tuple} {v' v : Value Item}

theorem Like.empty : Tuple.Like S .empty .empty := .nil

theorem Like.bind (h : t'.Like S t) (name : String) (hv : ValueLike S v' v) :
    (t'.bind name v').Like S (t.bind name v) := bind_keyed h name hv

theorem Like.bindings (h : t'.Like S t) : t'.bindings.Like S t.bindings :=
  BindingsOf.foldl_keyed h BindingsOf.Like.empty

end Tuple

/-! ## Contexts -/

namespace Context

variable {c' c : Context}

theorem Like.child (h : c'.Like S c) {b' b : Bindings} (hb : b'.Like S b) :
    (c'.child b').Like S (c.child b) := .cons hb h

/-- An empty scope on the second side does not matter. -/
theorem Like.skip (h : c'.Like S c) : c'.Like S (Tuple.empty.scope c) := ScopesLike.skip h

theorem Like.scope (h : c'.Like S c) {t' t : Tuple} (ht : t'.Like S t) :
    (t'.scope c').Like S (t.scope c) := h.child ht.bindings

theorem Like.withBinding (h : c'.Like S c) (name : String) {v' v : Value Item}
    (hv : ValueLike S v' v) : (c'.withBinding name v').Like S (c.withBinding name v) :=
  h.child (BindingsOf.Like.empty.bind name hv)

theorem Like.detached {b' b : Bindings} (h : b'.Like S b) :
    (Context.detached b').Like S (Context.detached b) := .cons h .nil

theorem Like.lookup (h : c'.Like S c) (name : String) :
    Option.Rel (ValueLike S) (c'.lookup name) (c.lookup name) := by
  obtain ⟨handle', scopes'⟩ := c'
  obtain ⟨handle, scopes⟩ := c
  change ScopesLike S scopes' scopes at h
  change Option.Rel _ (scopes'.findSome? _) (scopes.findSome? _)
  induction h with
  | nil => exact .none
  | skip _ ih => exact ih
  | cons hb _ ih =>
    have hg := hb.get? name
    simp only [List.findSome?_cons]
    revert hg
    generalize BindingsOf.get? _ name = o', BindingsOf.get? _ name = o
    intro hg
    cases hg with
    | none => exact ih
    | some hv => exact .some hv

theorem Like.binding (h : c'.Like S c) (name : String) :
    Carries (ValueLike S) (c'.binding name) (c.binding name) := by
  unfold Context.binding
  have hl := h.lookup name
  generalize c'.lookup name = o', c.lookup name = o at hl
  cases hl with
  | none => exact .error _
  | some hv => exact .ok hv

theorem Like.snapshot (h : c'.Like S c) : c'.snapshot.Like S c.snapshot := by
  obtain ⟨handle', scopes'⟩ := c'
  obtain ⟨handle, scopes⟩ := c
  change ScopesLike S scopes' scopes at h
  change BindingsOf.Like S (scopes'.foldr _ _) (scopes.foldr _ _)
  induction h with
  | nil => exact .empty
  | skip _ ih => exact ih
  | cons hb _ ih => exact ih.merge hb

end Context

/-! ## Functions -/

namespace FunctionOf

variable {f' f : FunctionItem}

theorem Like.mk {handle : Option Nat} {name : Option String} {parameters : List String}
    {signature : Signature} {body' body : Plan} {closure' closure : Bindings} (hbody : S body' body)
    (hclosure : closure'.Like S closure) :
    FunctionOf.Like S ⟨handle, name, parameters, signature, body', closure'⟩
      ⟨handle, name, parameters, signature, body, closure⟩ :=
  Item.Like.function handle name parameters signature hbody hclosure

theorem Like.alike (h : f'.Like S f) : Alike S (ValueLike S) f' f := by
  unfold FunctionOf.Like at h
  cases h with
  | atomic h => cases h
  | function _ _ _ _ hbody hclosure => exact ⟨rfl, rfl, rfl, rfl, hbody, hclosure⟩

theorem Alike.like (h : Alike S (ValueLike S) f' f) : f'.Like S f := by
  obtain ⟨handle, name, parameters, signature, body, closure⟩ := f'
  obtain ⟨rfl, rfl, rfl, rfl, hbody, hclosure⟩ := h
  exact .mk hbody hclosure

end FunctionOf

/-- Calls that come to like functions, or to like contexts. -/
inductive Invocation.Like (S : Plan → Plan → Prop) : Invocation → Invocation → Prop
  | partially {f' f : FunctionItem} (h : f'.Like S f) : Invocation.Like S (.partially f') (.partially f)
  | fully {c' c : Context} (h : c'.Like S c) : Invocation.Like S (.fully c') (.fully c)

namespace FunctionOf

variable {f' f : FunctionItem} {as' as : List (Option (Value Item))}

theorem prepareArguments_like (h : f'.Like S f) (c : Catalogue)
    (ha : List.Forall₂ (Option.Rel (ValueLike S)) as' as) :
    Carries (List.Forall₂ (Option.Rel (ValueLike S))) (f'.prepareArguments c as')
      (f.prepareArguments c as) := by
  unfold prepareArguments
  rw [ha.length_eq, h.alike.arity_eq, h.alike.signature_eq]
  split
  · exact .error _
  · exact (Catalogue.promoteArguments_like c ha _).mapError _ _

end FunctionOf

theorem Invocation.of_like {f' f : FunctionItem} {as' as : List (Option (Value Item))}
    (h : f'.Like S f) (c : Catalogue) (ha : List.Forall₂ (Option.Rel (ValueLike S)) as' as) :
    Carries (Invocation.Like S) (Invocation.of f' c as') (Invocation.of f c as) := by
  refine (FunctionOf.prepareArguments_like h c ha).bind fun bs' bs hb => ?_
  rw [Option.Rel.any_isNone_eq hb]
  split
  · exact .ok (.partially (h.alike.partiallyApply hb).like)
  · exact .ok (.fully (.detached (h.alike.invoked (Option.Rel.filterMap hb))))

/-! ## Evaluators -/

variable {calls : FunctionKey → Prop} {env' env : Environment}

/-- What relates the environments of spread plans and of the plans: they differ in the bodies of the
declared functions. `calls` says which functions of the second one have distributed bodies. -/
structure Environment.Spread (S : Plan → Plan → Prop) (calls : FunctionKey → Prop)
    (env' env : Environment) : Prop where
  cap' : env'.materializationCap = none
  cap : env.materializationCap = none
  catalogue : env'.catalogue = env.catalogue
  files : env'.files = env.files
  functions : List.Forall₂ (FunctionOf.Like S) env'.functions env.functions
  bodies : ∀ key, calls key → Builtin.find? key.1 key.2 = none ∧
    ∀ f, env.functions.find? key = some f → f.body.mode = .rows
  modes : ∀ {p' p}, S p' p → p'.mode.Spreads p.mode
  builtins : ∀ {b : Builtin}, b ≠ .structuredJsonFile → ∀ n,
    S (b.toFunction n).body (b.toFunction n).body

/-- Evaluations of spread plans carry over to evaluations of the plans. The distributed form of a
spread plan also carries over to what the plan gives on the host. No plan has a columnar form. -/
structure PlanEvaluator.Carries (S : Plan → Plan → Prop) (env' env : Environment)
    (ev' ev : PlanEvaluator) : Prop where
  evaluate : ∀ {p' p c' c}, S p' p → Context.Like S c' c →
    Engine.Carries env' env (Sequence.Like S) (ev'.evaluate p' c') (ev.evaluate p c)
  first : ∀ {p' p c' c}, S p' p → Context.Like S c' c →
    Engine.Carries env' env (Sequence.Like S) (ev'.firstOnHost p' c') (ev.firstOnHost p c)
  isEmpty : ∀ {p' p c' c}, S p' p → Context.Like S c' c →
    Engine.Carries env' env (· = ·) (ev'.emptyOnHost p' c') (ev.emptyOnHost p c)
  rows : ∀ {p' p c' c}, S p' p → p.mode = .rows → Context.Like S c' c →
    Engine.Carries env' env (Collection.Like (Item.Like S)) (ev'.rows p' c') (ev.rows p c)
  drawn : ∀ {p' p c' c}, S p' p → Context.Like S c' c →
    Engine.Carries env' env (fun c' l => Sequence.Like S c'.records l) (ev'.rows p' c')
      (ev.evaluate p c)
  drawnFirst : ∀ {p' p c' c}, S p' p → Context.Like S c' c →
    Engine.Carries env' env (fun c' l => Sequence.Like S (c'.take 1) l) (ev'.rows p' c')
      (ev.firstOnHost p c)
  drawnEmpty : ∀ {p' p c' c}, S p' p → Context.Like S c' c →
    Engine.Carries env' env (fun c' b => (c'.take 1).isEmpty = b) (ev'.rows p' c')
      (ev.emptyOnHost p c)
  frame : ∀ {p' p c' c}, S p' p → Context.Like S c' c → Engine.Never env' (ev'.planFrame p' c')

/-! ## Between distributed and host -/

namespace Engine

/-- Pulling a collection to the host without a cap succeeds. -/
theorem materialize_ok {α : Type} (hcap : env.materializationCap = none) (c : Collection α)
    (position : SourcePosition) (r : RunRecord) :
    ∃ s, materialize c position env r = .ok c.records s := by
  simp only [materialize, Run.environment, Bind.bind, ReaderT.bind, EStateM.bind, hcap]
  exact ⟨_, rfl⟩

theorem Meets.materialize {α : Type} {E : Failure → Prop} (hcap : env.materializationCap = none)
    (c : Collection α) (position : SourcePosition) :
    (Engine.materialize c position).Meets env (· = c.records) E := by
  intro r
  obtain ⟨s, hs⟩ := materialize_ok hcap c position r
  rw [hs]

variable (he : Environment.Spread S calls env' env)
include he

theorem Carries.materialize {α' α : Type} {R : α' → α → Prop} {c' : Collection α'}
    {c : Collection α} (h : c'.Like R c) (position' position : SourcePosition) :
    Engine.Carries env' env (List.Forall₂ R) (Engine.materialize c' position')
      (Engine.materialize c position) := by
  refine fun r => (Meets.materialize he.cap' c' position').mono ?_
  rintro l rfl
  obtain ⟨s, hs⟩ := materialize_ok he.cap c position r
  exact ⟨c.records, s, hs, h⟩

/-- A bound value on the host. -/
theorem Carries.items {v' v : Value Item} (h : ValueLike S v' v)
    (position' position : SourcePosition) :
    Engine.Carries env' env (Sequence.Like S) (Engine.items v' position')
      (Engine.items v position) := by
  cases h with
  | items h => exact .pure h
  | lowered h => exact .of_meets (Meets.materialize he.cap' _ _) fun l hl => hl ▸ h
  | rows h => exact .materialize he h _ _

end Engine

namespace Engine

theorem Meets.rows_items {E : Failure → Prop} (items : Sequence) :
    (Engine.rows (.items items)).Meets env (fun c => c.records = items) E :=
  fun _ => Collection.records_parallelize _ _

/-- A bound value in distributed form. -/
theorem Carries.valueRows {v' v : Value Item} (h : ValueLike S v' v) :
    Engine.Carries env' env (Collection.Like (Item.Like S)) (Engine.rows v') (Engine.rows v) := by
  cases h with
  | @items xs' xs h =>
    refine fun r => (Meets.rows_items xs').mono ?_
    rintro c' rfl
    refine ⟨_, r, rfl, ?_⟩
    rwa [Collection.Like, Collection.records_parallelize]
  | @lowered c' xs h =>
    refine fun r => .pure ⟨_, r, rfl, ?_⟩
    rwa [Collection.Like, Collection.records_parallelize]
  | rows h => exact .pure h

/-- A bound value in distributed form, beside one on the host. -/
theorem Carries.valueDrawn (hcap : env.materializationCap = none) {v' v : Value Item}
    (h : ValueLike S v' v) (position : SourcePosition) :
    Engine.Carries env' env (fun c' l => Sequence.Like S c'.records l) (Engine.rows v')
      (Engine.items v position) := by
  cases h with
  | @items xs' xs h => exact .of_meets (Meets.rows_items xs') fun c' hc => hc ▸ h
  | lowered h => exact .pure h
  | @rows c' c h =>
    refine fun r => .pure ?_
    obtain ⟨s, hs⟩ := materialize_ok hcap c position r
    exact ⟨_, s, hs, h⟩

end Engine

/-! ## Evaluations -/

namespace PlanEvaluator.Carries

variable {ev' ev : PlanEvaluator} (h : PlanEvaluator.Carries S env' env ev' ev)
  (he : Environment.Spread S calls env' env) {p' p q' q : Plan} {c' c : Context}
  (hc : Context.Like S c' c)
include h hc

theorem value (he : Environment.Spread S calls env' env) (hp : S p' p) :
    Engine.Carries env' env (ValueLike S) (ev'.value p' c') (ev.value p c) := by
  unfold PlanEvaluator.value Engine.valueIn
  rcases he.modes hp with hm | ⟨hm', hm⟩
  · rw [hm]
    dsimp only
    split
    · exact .of_never ((h.frame hp hc).bind _)
    · exact (h.drawn hp hc).map fun _ _ => .lowered
    · exact (h.evaluate hp hc).map fun _ _ => .items
  · rw [hm', hm]
    exact (h.rows hp hm hc).map fun _ _ => .rows

theorem optionalItem (hp : S p' p) (what : String) :
    Engine.Carries env' env (Option.Rel (Item.Like S)) (ev'.optionalItem p' c' what)
      (ev.optionalItem p c what) :=
  (h.evaluate hp hc).bind fun _ _ hs => .ofResult (hs.optional what _ _)

theorem truth (hp : S p' p) :
    Engine.Carries env' env (· = ·) (ev'.truth p' c') (ev.truth p c) := by
  refine (h.evaluate hp hc).bind fun s' s hs => .ofResult ?_
  rw [Sequence.Like.truth_eq hs]
  exact Carries.of_eq.mapError _ _

/-! ### Operators -/

/-- An operand: atomics are like only if they are the same. -/
theorem operand (hp : S p' p) :
    Engine.Carries env' env (· = ·) (ev'.operand p' c') (ev.operand p c) := by
  refine (h.optionalItem hc hp _).bind fun o' o ho => ?_
  cases ho with
  | none => exact .pure rfl
  | @some i' i hi =>
    dsimp only
    split
    · next ha =>
      rw [hi.eq_of_isAtomic ha]
      rw [hi.isAtomic_eq] at ha
      rw [if_pos ha]
      exact .pure rfl
    · exact .of_never (.locate .fail _)

theorem binary (hp : S p' p) (hq : S q' q) {apply : Item → Item → EngineResult Item}
    (hatomic : ∀ l r i, apply l r = .ok i → i.isAtomic = true) :
    Engine.Carries env' env (Sequence.Like S) (ev'.binary p' q' c' apply) (ev.binary p q c apply) := by
  refine (h.operand hc hp).bind ?_
  rintro l _ rfl
  refine (h.operand hc hq).bind ?_
  rintro r _ rfl
  cases l with
  | none => exact .pure .nil
  | some l =>
    cases r with
    | none => exact .pure .nil
    | some r =>
      have happly : HybridQuery.Carries (Item.Like S) (apply l r) (apply l r) :=
        fun i hi => ⟨i, hi, .atomic (hatomic l r i hi)⟩
      exact (Engine.Carries.ofResult happly).bind fun _ _ hi => .pure (.cons hi .nil)

theorem connective (op : LogicalOp) (hp : S p' p) (hq : S q' q) :
    Engine.Carries env' env (· = ·) (ev'.connective op p' q' c') (ev.connective op p q c) := by
  refine (h.truth hc hp).bind ?_
  rintro b _ rfl
  cases op <;> cases b <;> first | exact .pure rfl | exact h.truth hc hq

/-! ### Constructors -/

theorem pairKey (hp : S p' p) :
    Engine.Carries env' env (· = ·) (ev'.pairKey p' c') (ev.pairKey p c) := by
  refine (h.optionalItem hc hp _).bind fun o' o ho => ?_
  cases ho with
  | none => exact .of_never (.locate .fail _)
  | @some i' i hi =>
    dsimp only
    rw [hi.keyText?_eq]
    cases i.keyText? with
    | none => exact .of_never (.locate .fail _)
    | some key => exact .pure rfl

theorem objectPairs {ps' ps : List (Plan × Plan)} (hp : List.Forall₂ (Both S) ps' ps)
    {done' done : List (String × Item)} (hd : List.Forall₂ (Keyed (Item.Like S)) done' done) :
    Engine.Carries env' env (List.Forall₂ (Keyed (Item.Like S))) (ev'.objectPairs c' done' ps')
      (ev.objectPairs c done ps) := by
  induction hp generalizing done' done with
  | nil => exact .pure hd
  | cons hb _ ih =>
    cases hb with
    | mk hk hv =>
      refine (h.pairKey hc hk).bind ?_
      rintro key _ rfl
      rw [Keyed.any_eq hd (· == key)]
      split
      · exact .of_never (.locate .fail _)
      · refine (h.evaluate hv hc).bind fun s' s hs => ?_
        exact ih (List.rel_append hd (.cons (.mk key (Sequence.Like.asItem hs)) .nil))

end PlanEvaluator.Carries

end HybridQuery
