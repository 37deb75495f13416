import HybridQuery.Plan.Compile
import HybridQuery.Proofs.Spreading.Passes

/-!
# The passes over expressions that are spread

For each kind of expression and clause: if the pass over it succeeds in the first module, it succeeds
in the second one, and what they are compiled to is spread.

* `ScopesAlike`: the scopes of the two passes.
* `Expression.Passes`, `ExpressionKind.Passes`, `Clause.Passes`: the pass over a part succeeds with it.
* `Expression.Wraps.passes`: every expression passes, by induction on its size.
-/

namespace HybridQuery

open Declarations

/-! ## Scopes -/

/-- The same variables, with related modes. -/
def ScopesAlike (R : Mode → Mode → Prop) (s' s : List Scope) : Prop :=
  List.Forall₂ (List.Forall₂ fun p' p => p'.1 = p.1 ∧ R p'.2 p.2) s' s

namespace ScopesAlike

variable {R : Mode → Mode → Prop} {s' s : List Scope}

theorem lookup (h : ScopesAlike R s' s) (name : String) :
    Option.Rel R (lookupMode s' name) (lookupMode s name) := by
  have hone {l' l : Scope} (hl : List.Forall₂ (fun p' p => p'.1 = p.1 ∧ R p'.2 p.2) l' l) :
      Option.Rel R (l'.lookup name) (l.lookup name) := by
    induction hl with
    | nil => exact .none
    | @cons p' p _ _ hp _ ih =>
      obtain ⟨n', m'⟩ := p'
      obtain ⟨n, m⟩ := p
      obtain ⟨rfl, hm⟩ := hp
      rw [List.lookup_cons, List.lookup_cons]
      cases name == n' with
      | true => exact .some hm
      | false => exact ih
  induction h with
  | nil => exact .none
  | cons hl _ ih =>
    rw [lookupMode, lookupMode, List.findSome?_cons, List.findSome?_cons]
    have := hone hl
    revert this
    generalize List.lookup name _ = o', List.lookup name _ = o
    intro this
    cases this with
    | none => exact ih
    | some hm => exact .some hm

theorem bind (h : ScopesAlike R s' s) (name : String) {m' m : Mode} (hm : R m' m) :
    ScopesAlike R (bindMode s' name m') (bindMode s name m) := by
  cases h with
  | nil => exact .nil
  | cons hl h => exact .cons (.cons ⟨rfl, hm⟩ hl) h

theorem push (h : ScopesAlike R s' s) (l : Scope) (hR : ∀ p ∈ l, R p.2 p.2) :
    ScopesAlike R (l :: s') (l :: s) :=
  .cons (List.forall₂_same.mpr fun p hp => ⟨rfl, hR p hp⟩) h

theorem parameters (h : ScopesAlike R s' s) (hR : R .host .host) (parameters : List Parameter) :
    ScopesAlike R (parameterScope parameters :: s') (parameterScope parameters :: s) := by
  refine h.push _ fun p hp => ?_
  obtain ⟨parameter, -, rfl⟩ := List.mem_map.mp hp
  exact hR

end ScopesAlike

/-! ## Modes over an input -/

theorem Mode.Spreads.rowWise {m' m : Mode} (h : m'.Spreads m) : m'.rowWise.Spreads m.rowWise := by
  rcases h with rfl | ⟨rfl, rfl⟩
  · exact .inl rfl
  · exact .inr ⟨rfl, rfl⟩

theorem Mode.rowWise_eq_rows {m : Mode} (h : m.rowWise = .rows) : m.isParallel = true := by
  cases m <;> first | rfl | cases h

theorem lookupResultMode_spreads {m' m : Mode} (h : m'.Spreads m) :
    (lookupResultMode m').Spreads (lookupResultMode m) ∧
      (lookupResultMode m = .rows → m.isParallel = true) := by
  rcases h with rfl | ⟨rfl, rfl⟩
  · exact ⟨.inl rfl, nofun⟩
  · exact ⟨.inr ⟨rfl, rfl⟩, fun _ => rfl⟩

/-! ## Parts that pass -/

section
variable (K : List FunctionKey) (callee : CalleeMode)

/-- The pass over an expression gives it a mode; so does the pass over an expression that it spreads,
in scopes of the same variables. -/
def Expression.Passes (e' e : Expression) : Prop :=
  ∀ s' s, ScopesAlike (fun _ _ => True) s' s →
    Pass.Carries K (e'.analyse callee s') (e.analyse callee s)
      (fun t' m' t m => t'.slot.value = some m' ∧ t.slot.value = some m)
      (fun calls t' _ t _ => ScopesAlike Mode.Spreads s' s → t'.Spreads calls t)

/-- What an analysed expression is, beside what one is that it spreads. -/
structure ExpressionKind.Spreads (calls : FunctionKey → Prop) (k' : ExpressionKind) (m' : Mode)
    (k : ExpressionKind) (m : Mode) : Prop where
  modes : m'.Spreads m
  operations : ∀ c position op', k'.compile c position = .ok op' →
    ∃ op, k.compile c position = .ok op ∧ op'.Spread calls op ∧ (m = .rows → op.HasRows calls)

/-- The same as `Expression.Passes` for what expressions are. -/
def ExpressionKind.Passes (k' k : ExpressionKind) : Prop :=
  ∀ s' s, ScopesAlike (fun _ _ => True) s' s →
    Pass.Carries K (k'.analyse callee s') (k.analyse callee s) (fun _ _ _ _ => True)
      (fun calls t' m' t m => ScopesAlike Mode.Spreads s' s → t'.Spreads calls m' t m)

end

variable {K : List FunctionKey} {callee : CalleeMode}

theorem ExpressionKind.Spreads.host {calls : FunctionKey → Prop} {k' k : ExpressionKind}
    (h : ∀ c position op', k'.compile c position = .ok op' →
      ∃ op, k.compile c position = .ok op ∧ op'.Spread calls op) :
    k'.Spreads calls .host k .host where
  modes := .inl rfl
  operations c position op' hop := by
    obtain ⟨op, hk, hs⟩ := h c position op' hop
    exact ⟨op, hk, hs, nofun⟩

@[simp] theorem ModeSlot.value_set_empty (mode : Mode) : (ModeSlot.empty.set mode).value = some mode :=
  rfl

@[simp] theorem ModeSlot.getD_set_empty (mode : Mode) : (ModeSlot.empty.set mode).getD = mode := rfl

/-- The plan of an expression that has a mode. -/
theorem Expression.compile_eq_ok {c : Catalogue} {kind : ExpressionKind} {position : SourcePosition}
    {mode : Mode} {p : Plan} :
    (Expression.mk kind position ⟨some mode⟩).compile c = .ok p ↔
      ∃ op, kind.compile c position = .ok op ∧ p = .mk mode position op := by
  change (Except.ok mode >>= fun mode => kind.compile c position >>= fun op =>
    pure (Plan.mk mode position op)) = _ ↔ _
  simp only [EngineResult.bind_eq_ok, EngineResult.pure_eq_ok, Except.ok.injEq, exists_eq_left',
    @eq_comm _ p]

theorem ExpressionKind.Passes.expression {k' k : ExpressionKind} (h : k'.Passes K callee k)
    (position : SourcePosition) :
    (Expression.mk k' position .empty).Passes K callee (.mk k position .empty) := by
  intro s' s hs D' D hD t' m' E' hrun'
  rw [Expression.analyse_run] at hrun'
  rcases hk' : (k'.analyse callee s').run D' with ⟨⟨l', r'⟩, F'⟩
  rw [hk'] at hrun'
  cases r' with
  | error e => cases hrun'
  | ok m₀ =>
    cases hrun'
    obtain ⟨l, m, E, hk, hE, hg, -, hl, hq⟩ := h s' s hs D' D hD l' _ _ hk'
    refine ⟨.mk l position (ModeSlot.empty.set m), m, E, by rw [Expression.analyse_run, hk], hE, hg, ⟨rfl, rfl⟩, ?_, ?_⟩
    · rw [lets_expression, lets_expression, hl]
    · intro calls hf hkept hscopes
      rw [Kept, lets_expression, lets_expression] at hkept
      obtain ⟨hmodes, hops⟩ := hq calls hf hkept hscopes
      refine ⟨hmodes, fun c p' hp' => ?_⟩
      obtain ⟨op', hop', rfl⟩ := Expression.compile_eq_ok.mp hp'
      obtain ⟨op, hop, hspread, hrows⟩ := hops c position op' hop'
      exact ⟨_, Expression.compile_eq_ok.mpr ⟨op, hop, rfl⟩,
        .node (fun _ => hmodes) (fun _ => hrows) hspread, rfl⟩

/-! ## Expressions over one or two others -/

namespace Expression.Passes

variable {e' e f' f : Expression}

/-- The passes over two expressions, one after the other. -/
theorem two (he : e'.Passes K callee e) (hf : f'.Passes K callee f) {s' s : List Scope}
    (hs : ScopesAlike (fun _ _ => True) s' s) :
    Pass.Carries K
      (Pass.andThen (e'.analyse callee s') f' fun _ => f'.analyse callee s')
      (Pass.andThen (e.analyse callee s) f fun _ => f.analyse callee s) (fun _ _ _ _ => True)
      (fun calls t' _ t _ => ScopesAlike Mode.Spreads s' s →
        t'.1.Spreads calls t.1 ∧ t'.2.Spreads calls t.2) :=
  ((he s' s hs).andThen fun _ _ _ _ _ => hf s' s hs).mono (fun _ _ _ _ _ => trivial)
    fun _ _ _ _ _ _ ⟨_, _, _, _, hq, hr⟩ hscopes => ⟨hq hscopes, hr hscopes⟩

/-- The passes over an expression, and over another one in scopes of its own; the mode is the one of the
first. -/
theorem keeping (he : e'.Passes K callee e) (hf : f'.Passes K callee f) {s' s r' r : List Scope}
    (hs : ScopesAlike (fun _ _ => True) s' s) (hr : ScopesAlike (fun _ _ => True) r' r)
    (hrs : ScopesAlike Mode.Spreads s' s → ScopesAlike Mode.Spreads r' r) :
    Pass.Carries K
      (Pass.andThen (e'.analyse callee s') f' fun m => Pass.wrap (f'.analyse callee r') id fun _ => m)
      (Pass.andThen (e.analyse callee s) f fun m => Pass.wrap (f.analyse callee r) id fun _ => m)
      (fun t' m' t m => t'.1.slot.value = some m' ∧ t.1.slot.value = some m)
      (fun calls t' _ t _ => ScopesAlike Mode.Spreads s' s →
        t'.1.Spreads calls t.1 ∧ t'.2.Spreads calls t.2) := by
  have hsecond (m' m : Mode) : Pass.Carries K (Pass.wrap (f'.analyse callee r') id fun _ => m')
      (Pass.wrap (f.analyse callee r) id fun _ => m) (fun _ k' _ k => k' = m' ∧ k = m)
      (fun calls t' _ t _ => ScopesAlike Mode.Spreads r' r → t'.Spreads calls t) :=
    (hf r' r hr).wrap (fun _ => rfl) (fun _ _ _ _ _ => ⟨rfl, rfl⟩) fun _ _ _ _ _ _ hq => hq
  refine ((he s' s hs).andThen fun _ m' _ m _ => hsecond m' m).mono ?_ ?_
  · rintro t' k' t k ⟨m', m, hu, rfl, rfl⟩
    exact hu
  · rintro calls t' k' t k - ⟨m', m, -, -, hq, hr⟩ hscopes
    exact ⟨hq hscopes, hr (hrs hscopes)⟩

end Expression.Passes

/-! ## Kinds of expressions -/

theorem lets_one (e : Expression) : [e.outline].flatMap Outline.lets = lets e := by
  rw [List.flatMap_cons, List.flatMap_nil, List.append_nil]
  rfl

theorem lets_two (e f : Expression) :
    [e.outline, f.outline].flatMap Outline.lets = lets e ++ lets f := by
  rw [List.flatMap_cons, lets_one]
  rfl

theorem lets_three (e f g : Expression) :
    [e.outline, f.outline, g.outline].flatMap Outline.lets = lets e ++ (lets f ++ lets g) := by
  rw [List.flatMap_cons, lets_two]
  rfl

namespace ExpressionKind.Passes

variable {e' e f' f g' g : Expression}

/-- A kind without parts, on the host. -/
theorem leaf {k : ExpressionKind} (hanalyse : ∀ s, k.analyse callee s = Pass.done k (.ok .host))
    (hk : ∀ calls c position op', k.compile c position = .ok op' → op'.Spread calls op') :
    k.Passes K callee k := by
  intro s' s hs
  rw [hanalyse, hanalyse]
  refine .done rfl fun m hm => ⟨m, hm, trivial, fun calls _ => ?_⟩
  cases hm
  exact .host fun c position op' h => ⟨op', h, hk calls c position op' h⟩

theorem literal (value : Json) :
    (ExpressionKind.literal value).Passes K callee (.literal value) := by
  refine .leaf (fun _ => rfl) fun calls c position op' h => ?_
  cases h
  exact .compute (.literal value)

theorem contextItem : ExpressionKind.contextItem.Passes K callee .contextItem := by
  refine .leaf (fun _ => rfl) fun calls c position op' h => ?_
  cases h
  exact .compute .contextItem

theorem emptyArray : (ExpressionKind.array none).Passes K callee (.array none) := by
  refine .leaf (fun _ => rfl) fun calls c position op' h => ?_
  cases h
  exact .compute (.array .none)

theorem varRef (name : String) : (ExpressionKind.varRef name).Passes K callee (.varRef name) := by
  intro s' s hs
  refine .done rfl fun m' hm' => ?_
  have hlookup := hs.lookup name
  revert hm'
  cases h' : lookupMode s' name with
  | none => nofun
  | some k' =>
    intro hm'
    cases hm'
    rw [h'] at hlookup
    cases h : lookupMode s name with
    | none =>
      rw [h] at hlookup
      cases hlookup
    | some k =>
      refine ⟨k, rfl, trivial, fun calls hscopes => ⟨?_, fun c position op' hop => ?_⟩⟩
      · have hspread := hscopes.lookup name
        rw [h', h] at hspread
        cases hspread
        assumption
      · cases hop
        exact ⟨_, rfl, .varRef name, fun _ => trivial⟩

/-- A kind over one expression, on the host. -/
theorem ofOne (he : e'.Passes K callee e) (make : Expression → ExpressionKind) (operation : Plan → Operation)
    (hanalyse : ∀ e s, (make e).analyse callee s =
      Pass.wrap (e.analyse callee s) make fun _ => .host)
    (houtlines : ∀ e, (make e).outlines = [e.outline])
    (hcompile : ∀ c position e, (make e).compile c position = (do return operation (← e.compile c)))
    (hspread : ∀ {calls p' p}, Plan.Spread calls p' p →
      (operation p').Spread calls (operation p)) :
    (make e').Passes K callee (make e) := by
  intro s' s hs
  rw [hanalyse, hanalyse]
  refine (he s' s hs).wrap (fun e => ?_) (fun _ _ _ _ _ => trivial) ?_
  · rw [← lets_one e, ← houtlines e]
    rfl
  · intro calls t' _ t _ _ hq hscopes
    refine .host fun c position op' h => ?_
    simp only [hcompile, EngineResult.bind_eq_ok, EngineResult.pure_eq_ok] at h ⊢
    obtain ⟨p', hp', rfl⟩ := h
    obtain ⟨p, hp, hps, -⟩ := (hq hscopes).plans c p' hp'
    exact ⟨_, ⟨p, hp, rfl⟩, hspread hps⟩

/-- A kind over two expressions, on the host. -/
theorem ofTwo (he : e'.Passes K callee e) (hf : f'.Passes K callee f)
    (make : Expression → Expression → ExpressionKind) (operation : Plan → Plan → Operation)
    (hanalyse : ∀ e f s, (make e f).analyse callee s =
      Pass.wrap (Pass.andThen (e.analyse callee s) f fun _ => f.analyse callee s)
        (fun (e, f) => make e f) fun _ => .host)
    (houtlines : ∀ e f, (make e f).outlines = [e.outline, f.outline])
    (hcompile : ∀ c position e f, (make e f).compile c position =
      (do return operation (← e.compile c) (← f.compile c)))
    (hspread : ∀ {calls p' p q' q}, Plan.Spread calls p' p → Plan.Spread calls q' q →
      (operation p' q').Spread calls (operation p q)) :
    (make e' f').Passes K callee (make e f) := by
  intro s' s hs
  rw [hanalyse, hanalyse]
  refine (he.two hf hs).wrap (fun t => ?_) (fun _ _ _ _ _ => trivial) ?_
  · rw [lets_pair, ← lets_two t.1 t.2, ← houtlines t.1 t.2]
    rfl
  · intro calls t' _ t _ _ hq hscopes
    refine .host fun c position op' h => ?_
    simp only [hcompile, EngineResult.bind_eq_ok, EngineResult.pure_eq_ok] at h ⊢
    obtain ⟨p', hp', q', hq', rfl⟩ := h
    obtain ⟨p, hp, hps, -⟩ := (hq hscopes).1.plans c p' hp'
    obtain ⟨q, hq, hqs, -⟩ := (hq hscopes).2.plans c q' hq'
    exact ⟨_, ⟨p, hp, q, hq, rfl⟩, hspread hps hqs⟩

theorem not (he : e'.Passes K callee e) : (ExpressionKind.not e').Passes K callee (.not e) :=
  .ofOne he .not (fun p => .compute (.not p)) (fun _ _ => rfl) (fun _ => rfl) (fun _ _ _ => rfl)
    fun hp => .compute (.not hp)

theorem array (he : e'.Passes K callee e) :
    (ExpressionKind.array (some e')).Passes K callee (.array (some e)) :=
  .ofOne he (fun e => .array (some e)) (fun p => .compute (.array (some p))) (fun _ _ => rfl)
    (fun _ => rfl) (fun _ _ _ => rfl) fun hp => .compute (.array (.some hp))

theorem arithmetic (op : ArithmeticOp) (he : e'.Passes K callee e) (hf : f'.Passes K callee f) :
    (ExpressionKind.arithmetic op e' f').Passes K callee (.arithmetic op e f) :=
  .ofTwo he hf (.arithmetic op) (fun p q => .compute (.arithmetic op p q)) (fun _ _ _ => rfl)
    (fun _ _ => rfl) (fun _ _ _ _ => rfl) fun hp hq => .compute (.arithmetic op hp hq)

theorem comparison (op : ComparisonOp) (he : e'.Passes K callee e) (hf : f'.Passes K callee f) :
    (ExpressionKind.comparison op e' f').Passes K callee (.comparison op e f) :=
  .ofTwo he hf (.comparison op) (fun p q => .compute (.comparison op p q)) (fun _ _ _ => rfl)
    (fun _ _ => rfl) (fun _ _ _ _ => rfl) fun hp hq => .compute (.comparison op hp hq)

theorem logical (op : LogicalOp) (he : e'.Passes K callee e) (hf : f'.Passes K callee f) :
    (ExpressionKind.logical op e' f').Passes K callee (.logical op e f) :=
  .ofTwo he hf (.logical op) (fun p q => .compute (.logical op p q)) (fun _ _ _ => rfl)
    (fun _ _ => rfl) (fun _ _ _ _ => rfl) fun hp hq => .compute (.logical op hp hq)

theorem range (he : e'.Passes K callee e) (hf : f'.Passes K callee f) :
    (ExpressionKind.range e' f').Passes K callee (.range e f) :=
  .ofTwo he hf .range .range (fun _ _ _ => rfl) (fun _ _ => rfl) (fun _ _ _ _ => rfl) .range

theorem conditional (he : e'.Passes K callee e) (hf : f'.Passes K callee f) (hg : g'.Passes K callee g) :
    (ExpressionKind.conditional e' f' g').Passes K callee (.conditional e f g) := by
  intro s' s hs
  rw [ExpressionKind.analyse, ExpressionKind.analyse]
  refine ((he s' s hs).andThen fun _ _ _ _ _ => hf.two hg hs).wrap (fun t => ?_)
    (fun _ _ _ _ _ => trivial) ?_
  · rw [lets_pair, lets_pair, ← lets_three]
    rfl
  · rintro calls t' _ t _ - ⟨_, _, -, -, hq, hr⟩ hscopes
    refine .host fun c position op' h => ?_
    simp only [ExpressionKind.compile, EngineResult.bind_eq_ok, EngineResult.pure_eq_ok] at h ⊢
    obtain ⟨p', hp', q', hq', r', hr', rfl⟩ := h
    obtain ⟨p, hp, hps, -⟩ := (hq hscopes).plans c p' hp'
    obtain ⟨q, hq, hqs, -⟩ := (hr hscopes).1.plans c q' hq'
    obtain ⟨r, hr, hrs, -⟩ := (hr hscopes).2.plans c r' hr'
    exact ⟨_, ⟨p, hp, q, hq, r, hr, rfl⟩, .conditional hps hqs hrs⟩

/-! ### Navigation -/

/-- Navigation that works item by item on its input. -/
theorem navigation (step : Plan → NavigationStep) (make : Expression → Expression → ExpressionKind)
    (value : Mode → Mode) (inner : List Scope → List Scope) (he : e'.Passes K callee e)
    (hf : f'.Passes K callee f)
    (hvalue : ∀ {m' m : Mode}, m'.Spreads m → (value m').Spreads (value m) ∧
      (value m = .rows → m.isParallel = true))
    (hinner : ∀ {R s' s}, (∀ m, m = Mode.host → R m m) → ScopesAlike R s' s →
      ScopesAlike R (inner s') (inner s))
    (hanalyse : ∀ e f s, (make e f).analyse callee s =
      Pass.wrap
        (Pass.andThen (e.analyse callee s) f fun m =>
          Pass.wrap (f.analyse callee (inner s)) id fun _ => m)
        (fun (e, f) => make e f) value)
    (houtlines : ∀ e f, (make e f).outlines = [e.outline, f.outline])
    (hcompile : ∀ c position e f, (make e f).compile c position = (do
      let operand ← f.compile c
      return .navigate (step operand) (← e.compile c)))
    (hstep : ∀ {calls p' p}, Plan.Spread calls p' p → (step p').Spread calls (step p)) :
    (make e' f').Passes K callee (make e f) := by
  intro s' s hs
  rw [hanalyse, hanalyse]
  refine (he.keeping hf hs (hinner (fun _ _ => trivial) hs)
    (hinner fun m hm => .inl hm)).wrap (fun t => ?_) (fun _ _ _ _ _ => trivial) ?_
  · rw [lets_pair, ← lets_two t.1 t.2, ← houtlines t.1 t.2]
    rfl
  · rintro calls t' m' t m ⟨hm', hm⟩ hq hscopes
    obtain ⟨hfirst, hsecond⟩ := hq hscopes
    have hmodes : m'.Spreads m := by
      have := hfirst.modes
      rwa [ModeSlot.getD, ModeSlot.getD, hm', hm] at this
    refine ⟨(hvalue hmodes).1, fun c position op' h => ?_⟩
    rw [hcompile] at h ⊢
    simp only [EngineResult.bind_eq_ok, EngineResult.pure_eq_ok] at h ⊢
    obtain ⟨q', hq', p', hp', rfl⟩ := h
    obtain ⟨q, hq, hqs, -⟩ := hsecond.plans c q' hq'
    obtain ⟨p, hp, hps, hpm⟩ := hfirst.plans c p' hp'
    refine ⟨_, ⟨q, hq, p, hp, rfl⟩, .navigate (hstep hqs) hps, fun hrows => ?_⟩
    rw [ModeSlot.getD, hm] at hpm
    change p.mode.isParallel = true
    rw [hpm]
    exact (hvalue hmodes).2 hrows

theorem objectLookup (he : e'.Passes K callee e) (hf : f'.Passes K callee f) :
    (ExpressionKind.objectLookup e' f').Passes K callee (.objectLookup e f) :=
  .navigation .objectLookup .objectLookup lookupResultMode id he hf lookupResultMode_spreads
    (fun _ h => h) (fun _ _ _ => rfl) (fun _ _ => rfl)
    (fun _ _ _ _ => rfl) .objectLookup

theorem arrayLookup (he : e'.Passes K callee e) (hf : f'.Passes K callee f) :
    (ExpressionKind.arrayLookup e' f').Passes K callee (.arrayLookup e f) :=
  .navigation .arrayLookup .arrayLookup Mode.rowWise id he hf
    (fun h => ⟨h.rowWise, Mode.rowWise_eq_rows⟩) (fun _ h => h)
    (fun _ _ _ => rfl) (fun _ _ => rfl)
    (fun _ _ _ _ => rfl) .arrayLookup

theorem filter (he : e'.Passes K callee e) (hf : f'.Passes K callee f) :
    (ExpressionKind.filter e' f').Passes K callee (.filter e f) :=
  .navigation .filter .filter Mode.rowWise (fun s => [(contextItemName, .host)] :: s) he hf
    (fun h => ⟨h.rowWise, Mode.rowWise_eq_rows⟩)
    (fun hR h => h.push _ (by simpa using hR))
    (fun _ _ _ => rfl) (fun _ _ => rfl)
    (fun _ _ _ _ => rfl) .filter

theorem arrayUnbox (he : e'.Passes K callee e) :
    (ExpressionKind.arrayUnbox e').Passes K callee (.arrayUnbox e) := by
  intro s' s hs
  refine (he s' s hs).wrap (fun e => ?_) (fun _ _ _ _ _ => trivial) ?_
  · rw [← lets_one e]
    rfl
  · rintro calls t' m' t m ⟨hm', hm⟩ hq hscopes
    obtain ⟨hmodes, hplans⟩ := hq hscopes
    rw [ModeSlot.getD, ModeSlot.getD, hm', hm] at hmodes
    refine ⟨hmodes.rowWise, fun c position op' h => ?_⟩
    simp only [ExpressionKind.compile, EngineResult.bind_eq_ok, EngineResult.pure_eq_ok] at h ⊢
    obtain ⟨p', hp', rfl⟩ := h
    obtain ⟨p, hp, hps, hpm⟩ := hplans c p' hp'
    refine ⟨_, ⟨p, hp, rfl⟩, .navigate .arrayUnbox hps, fun hrows => ?_⟩
    rw [ModeSlot.getD, hm] at hpm
    change p.mode.isParallel = true
    rw [hpm]
    exact Mode.rowWise_eq_rows hrows

/-! ### Lists of expressions -/

theorem members {es' es : List Expression} (h : List.Forall₂ (Expression.Passes K callee) es' es)
    {s' s : List Scope} (hs : ScopesAlike (fun _ _ => True) s' s) :
    Pass.Carries K (analyseMembers callee s' es') (analyseMembers callee s es) (fun _ _ _ _ => True)
      (fun calls t' all' t all => ScopesAlike Mode.Spreads s' s →
        List.Forall₂ (Expression.Spreads calls) t' t ∧ (all = true → all' = true) ∧
          (all = true → ∀ e ∈ t, e.slot.getD.isParallel = true)) := by
  induction h with
  | nil =>
    refine .done rfl fun _ h => ⟨true, rfl, trivial, fun _ _ => ⟨.nil, ?_, nofun⟩⟩
    cases h
    exact fun _ => rfl
  | @cons e' e es' es he _ ih =>
    have hrest (m' m : Mode) : Pass.Carries K
        (Pass.wrap (analyseMembers callee s' es') id fun all => m'.isParallel && all)
        (Pass.wrap (analyseMembers callee s es) id fun all => m.isParallel && all)
        (fun _ _ _ _ => True)
        (fun calls t' all' t all => ScopesAlike Mode.Spreads s' s →
          List.Forall₂ (Expression.Spreads calls) t' t ∧
            (m'.Spreads m → all = true → all' = true) ∧
            (all = true → m.isParallel = true ∧ ∀ e ∈ t, e.slot.getD.isParallel = true)) := by
      refine ih.wrap (fun _ => rfl) (fun _ _ _ _ _ => trivial) ?_
      intro calls t' all' t all _ hq hscopes
      obtain ⟨hplans, hall, hpar⟩ := hq hscopes
      refine ⟨hplans, ?_, ?_⟩
      · rintro (rfl | ⟨rfl, rfl⟩) ha
        · cases ha
        · exact hall ha
      · intro ha
        obtain ⟨hm, ha⟩ := Bool.and_eq_true_iff.mp ha
        exact ⟨hm, hpar ha⟩
    refine ((he s' s hs).andThen fun _ m' _ m _ => hrest m' m).wrap (fun _ => rfl)
      (fun _ _ _ _ _ => trivial) ?_
    rintro calls t' all' t all - ⟨m', m, ⟨hm', hm⟩, -, hq, hr⟩ hscopes
    obtain ⟨hplans, hall, hpar⟩ := hr hscopes
    have hmodes := (hq hscopes).modes
    rw [ModeSlot.getD, ModeSlot.getD, hm', hm] at hmodes
    refine ⟨.cons (hq hscopes) hplans, hall hmodes, fun ha e he => ?_⟩
    rcases List.mem_cons.mp he with rfl | he
    · rw [ModeSlot.getD, hm]
      exact (hpar ha).1
    · exact (hpar ha).2 e he

theorem compileMembers_spreads {calls : FunctionKey → Prop} {es' es : List Expression}
    (h : List.Forall₂ (Expression.Spreads calls) es' es) (c : Catalogue) {ps' : List Plan}
    (hps' : compileMembers c es' = .ok ps') :
    ∃ ps, compileMembers c es = .ok ps ∧ List.Forall₂ (Plan.Spread calls) ps' ps ∧
      ps.map Plan.mode = es.map (·.slot.getD) := by
  have hcons (e : Expression) (es : List Expression) : compileMembers c (e :: es) =
      (do return (← e.compile c) :: (← compileMembers c es)) := rfl
  induction h generalizing ps' with
  | nil =>
    cases hps'
    exact ⟨[], rfl, .nil, rfl⟩
  | cons he _ ih =>
    simp only [hcons, EngineResult.bind_eq_ok, EngineResult.pure_eq_ok] at hps' ⊢
    obtain ⟨p', hp', qs', hqs', rfl⟩ := hps'
    obtain ⟨p, hp, hps, hpm⟩ := he.plans c p' hp'
    obtain ⟨qs, hqs, hspread, hmodes⟩ := ih hqs'
    exact ⟨_, ⟨p, hp, qs, hqs, rfl⟩, .cons hps hspread, by simp [hpm, hmodes]⟩

theorem sequence {es' es : List Expression} (h : List.Forall₂ (Expression.Passes K callee) es' es) :
    (ExpressionKind.sequence es').Passes K callee (.sequence es) := by
  intro s' s hs
  have hempty : es'.isEmpty = es.isEmpty := by cases h <;> rfl
  refine (members h hs).wrap (fun es => ?_) (fun _ _ _ _ _ => trivial) ?_
  · exact lets_memberOutlines es
  · intro calls t' all' t all _ hq hscopes
    obtain ⟨hplans, hall, hpar⟩ := hq hscopes
    have hrows : sequenceMode es.isEmpty all = .rows → all = true := by
      intro h
      cases all with
      | true => rfl
      | false => simp [sequenceMode] at h
    refine ⟨?_, fun c position op' h => ?_⟩
    · rw [hempty]
      cases all with
      | false => exact .inl (by simp [sequenceMode])
      | true =>
        rw [hall rfl]
        cases es.isEmpty
        · exact .inr ⟨rfl, rfl⟩
        · exact .inl rfl
    · simp only [ExpressionKind.compile, EngineResult.bind_eq_ok, EngineResult.pure_eq_ok] at h ⊢
      obtain ⟨ps', hps', rfl⟩ := h
      obtain ⟨ps, hps, hspread, hmodes⟩ := compileMembers_spreads hplans c hps'
      refine ⟨_, ⟨ps, hps, rfl⟩, .sequence hspread, fun hm p hp => ?_⟩
      have hp' : p.mode ∈ t.map (·.slot.getD) := hmodes ▸ List.mem_map_of_mem hp
      obtain ⟨e, he, hem⟩ := List.mem_map.mp hp'
      rw [← hem]
      exact hpar (hrows hm) e he

theorem pairs {ps' ps : List (Expression × Expression)}
    (h : List.Forall₂ (Both (Expression.Passes K callee)) ps' ps) {s' s : List Scope}
    (hs : ScopesAlike (fun _ _ => True) s' s) :
    Pass.Carries K (analysePairs callee s' ps') (analysePairs callee s ps) (fun _ _ _ _ => True)
      (fun calls t' _ t _ => ScopesAlike Mode.Spreads s' s →
        List.Forall₂ (Both (Expression.Spreads calls)) t' t) := by
  induction h with
  | nil =>
    exact .done rfl fun _ _ => ⟨(), rfl, trivial, fun _ _ => .nil⟩
  | cons hp _ ih =>
    cases hp with
    | mk hk hv =>
      refine ((hk s' s hs).andThen fun _ _ _ _ _ => (hv s' s hs).andThen fun _ _ _ _ _ => ih).wrap
        (fun t => ?_) (fun _ _ _ _ _ => trivial) ?_
      · rw [lets_pair, lets_pair, lets_cons, lets_pair, List.append_assoc]
      · rintro calls t' _ t _ - ⟨_, _, -, -, hq, _, _, -, -, hr, hrest⟩ hscopes
        exact .cons (.mk (hq hscopes) (hr hscopes)) (hrest hscopes)

theorem compilePairs_spreads {calls : FunctionKey → Prop} {ps' ps : List (Expression × Expression)}
    (h : List.Forall₂ (Both (Expression.Spreads calls)) ps' ps) (c : Catalogue)
    {qs' : List (Plan × Plan)} (hqs' : compilePairs c ps' = .ok qs') :
    ∃ qs, compilePairs c ps = .ok qs ∧ List.Forall₂ (Both (Plan.Spread calls)) qs' qs := by
  have hcons (k v : Expression) (ps : List (Expression × Expression)) :
      compilePairs c ((k, v) :: ps) =
        (do return (← k.compile c, ← v.compile c) :: (← compilePairs c ps)) := rfl
  induction h generalizing qs' with
  | nil =>
    cases hqs'
    exact ⟨[], rfl, .nil⟩
  | cons hp _ ih =>
    cases hp with
    | mk hk hv =>
      simp only [hcons, EngineResult.bind_eq_ok, EngineResult.pure_eq_ok] at hqs' ⊢
      obtain ⟨k', hk', v', hv', rest', hrest', rfl⟩ := hqs'
      obtain ⟨k, hkc, hks, -⟩ := hk.plans c k' hk'
      obtain ⟨v, hvc, hvs, -⟩ := hv.plans c v' hv'
      obtain ⟨rest, hrest, hspread⟩ := ih hrest'
      exact ⟨_, ⟨k, hkc, v, hvc, rest, hrest, rfl⟩, .cons (.mk hks hvs) hspread⟩

theorem object {ps' ps : List (Expression × Expression)}
    (h : List.Forall₂ (Both (Expression.Passes K callee)) ps' ps) :
    (ExpressionKind.object ps').Passes K callee (.object ps) := by
  intro s' s hs
  refine (pairs h hs).wrap (fun ps => ?_) (fun _ _ _ _ _ => trivial) ?_
  · exact lets_pairOutlines ps
  · intro calls t' _ t _ _ hq hscopes
    refine .host fun c position op' h => ?_
    simp only [ExpressionKind.compile, EngineResult.bind_eq_ok, EngineResult.pure_eq_ok] at h ⊢
    obtain ⟨qs', hqs', rfl⟩ := h
    obtain ⟨qs, hqs, hspread⟩ := compilePairs_spreads (hq hscopes) c hqs'
    exact ⟨_, ⟨qs, hqs, rfl⟩, .compute (.object hspread)⟩

/-- The arguments that are left out. -/
abbrev gaps {α : Type} (l : List (Option α)) : List Bool := l.map Option.isNone

theorem gaps_of_forall₂ {α β : Type} {R : α → β → Prop} {l : List (Option α)} {k : List (Option β)}
    (h : List.Forall₂ (Option.Rel R) l k) : gaps l = gaps k := by
  induction h with
  | nil => rfl
  | cons hab _ ih => cases hab <;> simp [gaps, ih]

theorem arguments {as' as : List (Option Expression)}
    (h : List.Forall₂ (Option.Rel (Expression.Passes K callee)) as' as) {s' s : List Scope}
    (hs : ScopesAlike (fun _ _ => True) s' s) :
    Pass.Carries K (analyseArguments callee s' as') (analyseArguments callee s as)
      (fun t' _ t _ => gaps t' = gaps as ∧ gaps t = gaps as)
      (fun calls t' _ t _ => ScopesAlike Mode.Spreads s' s →
        List.Forall₂ (Option.Rel (Expression.Spreads calls)) t' t) := by
  induction h with
  | nil =>
    exact .done rfl fun _ _ => ⟨(), rfl, ⟨rfl, rfl⟩, fun _ _ => .nil⟩
  | cons ha _ ih =>
    cases ha with
    | none =>
      refine ih.wrap (fun _ => rfl) ?_ ?_
      · rintro t' _ t _ ⟨h', h⟩
        exact ⟨congrArg (true :: ·) h', congrArg (true :: ·) h⟩
      · intro calls t' _ t _ _ hq hscopes
        exact .cons .none (hq hscopes)
    | some he =>
      refine ((he s' s hs).andThen fun _ _ _ _ _ => ih).wrap (fun _ => rfl) ?_ ?_
      · rintro t' _ t _ ⟨_, _, -, h', h⟩
        exact ⟨congrArg (false :: ·) h', congrArg (false :: ·) h⟩
      · rintro calls t' _ t _ - ⟨_, _, -, -, hq, hr⟩ hscopes
        exact .cons (.some (hq hscopes)) (hr hscopes)

theorem compileArguments_spreads {calls : FunctionKey → Prop} {as' as : List (Option Expression)}
    (h : List.Forall₂ (Option.Rel (Expression.Spreads calls)) as' as) (c : Catalogue)
    {qs' : List (Option Plan)} (hqs' : compileArguments c as' = .ok qs') :
    ∃ qs, compileArguments c as = .ok qs ∧ List.Forall₂ (Option.Rel (Plan.Spread calls)) qs' qs ∧
      gaps qs = gaps as := by
  have hnone (as : List (Option Expression)) : compileArguments c (none :: as) =
      (do return none :: (← compileArguments c as)) := rfl
  have hsome (e : Expression) (as : List (Option Expression)) : compileArguments c (some e :: as) =
      (do return some (← e.compile c) :: (← compileArguments c as)) := rfl
  induction h generalizing qs' with
  | nil =>
    cases hqs'
    exact ⟨[], rfl, .nil, rfl⟩
  | cons ha _ ih =>
    cases ha with
    | none =>
      simp only [hnone, EngineResult.bind_eq_ok, EngineResult.pure_eq_ok] at hqs' ⊢
      obtain ⟨rest', hrest', rfl⟩ := hqs'
      obtain ⟨rest, hrest, hspread, hgaps⟩ := ih hrest'
      exact ⟨_, ⟨rest, hrest, rfl⟩, .cons .none hspread, congrArg (true :: ·) hgaps⟩
    | some he =>
      simp only [hsome, EngineResult.bind_eq_ok, EngineResult.pure_eq_ok] at hqs' ⊢
      obtain ⟨p', hp', rest', hrest', rfl⟩ := hqs'
      obtain ⟨p, hp, hps, -⟩ := he.plans c p' hp'
      obtain ⟨rest, hrest, hspread, hgaps⟩ := ih hrest'
      exact ⟨_, ⟨p, hp, rest, hrest, rfl⟩, .cons (.some hps) hspread, congrArg (false :: ·) hgaps⟩

/-! ### Functions -/

theorem dynamicCall {as' as : List (Option Expression)} (he : e'.Passes K callee e)
    (h : List.Forall₂ (Option.Rel (Expression.Passes K callee)) as' as) :
    (ExpressionKind.dynamicCall e' as').Passes K callee (.dynamicCall e as) := by
  intro s' s hs
  rw [ExpressionKind.analyse, ExpressionKind.analyse]
  refine ((he s' s hs).andThen fun _ _ _ _ _ => arguments h hs).wrap (fun t => ?_)
    (fun _ _ _ _ _ => trivial) ?_
  · rw [lets_pair, ← lets_argumentOutlines]
    rfl
  · rintro calls t' _ t _ - ⟨_, _, -, -, hq, hr⟩ hscopes
    refine .host fun c position op' h => ?_
    simp only [ExpressionKind.compile, EngineResult.bind_eq_ok, EngineResult.pure_eq_ok] at h ⊢
    obtain ⟨p', hp', qs', hqs', rfl⟩ := h
    obtain ⟨p, hp, hps, -⟩ := (hq hscopes).plans c p' hp'
    obtain ⟨qs, hqs, hspread, -⟩ := compileArguments_spreads (hr hscopes) c hqs'
    exact ⟨_, ⟨p, hp, qs, hqs, rfl⟩, .dynamicCall hps hspread⟩

theorem inlineFunction (parameters : List Parameter) (returnType : SequenceType)
    (he : e'.Passes K callee e) :
    (ExpressionKind.inlineFunction parameters returnType e').Passes K callee
      (.inlineFunction parameters returnType e) := by
  intro s' s hs
  refine (he _ _ (hs.parameters trivial parameters)).wrap (fun e => ?_) (fun _ _ _ _ _ => trivial) ?_
  · rw [← lets_one e]
    rfl
  · intro calls t' _ t _ _ hq hscopes
    refine .host fun c position op' h => ?_
    simp only [ExpressionKind.compile, EngineResult.bind_eq_ok, EngineResult.pure_eq_ok] at h ⊢
    obtain ⟨signature, hsig, p', hp', rfl⟩ := h
    obtain ⟨p, hp, hps, -⟩ := (hq (hscopes.parameters (.inl rfl) parameters)).plans c p' hp'
    exact ⟨_, ⟨signature, hsig, p, hp, rfl⟩, .compute (.inlineFunction _ _ hps)⟩

theorem isDeclared_eq {D' D : Declarations} (h : Matched K D' D) (key : FunctionKey) :
    D'.any (·.key == key) = D.any (·.key == key) := by
  have hkeys {F' F : Declarations} (hF : List.Forall₂ (Paired D' D) F' F) :
      F'.any (·.key == key) = F.any (·.key == key) := by
    induction hF with
    | nil => rfl
    | cons hd _ ih => rw [List.any_cons, List.any_cons, hd.key, ih]
  exact hkeys h.paired

theorem functionRef {name : String} {arity : Nat}
    (hname : Builtin.find? name arity ≠ some .structuredJsonFile) :
    (ExpressionKind.functionRef name arity).Passes K callee (.functionRef name arity) := by
  intro s' s hs D' D hD t' m' E' hrun'
  rw [ExpressionKind.functionRef_run, isDeclared_eq hD] at hrun'
  refine ⟨.functionRef name arity, .host, D, ?_⟩
  split at hrun'
  · rename_i hknown
    cases hrun'
    refine ⟨by rw [ExpressionKind.functionRef_run, if_pos hknown], hD, .refl _ _, trivial, rfl, fun calls _ _ _ => .host ?_⟩
    intro c position op' h
    cases h
    exact ⟨_, rfl, .compute (.functionRef hname)⟩
  · cases hrun'

end ExpressionKind.Passes
end HybridQuery
