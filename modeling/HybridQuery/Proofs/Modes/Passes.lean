import HybridQuery.Proofs.Completeness.Modules
import HybridQuery.Proofs.Modes.Rules

/-!
# Passes follow the rules

A pass over a part without modes gives it the modes of the rules, as long as the modes of the functions
that are called in it are found as the rules have them. The state of the pass, its stack of scopes and
the declarations with the modes found so far, is compared with the names in scope by what is looked up
in it.

* `Pass.Follows`: the judgement, with one lemma for each way in which passes are put together.
* `ClauseScope.rules`: what the rules know of the scopes of a pipeline; `ClauseScope.introduce_rules` and
  `ClauseScope.afterGrouping_rules` say how it changes.
* `Expression.follows`: the pass over any expression.
-/

namespace HybridQuery

/-! ## Scopes -/

namespace VariableModes

variable {vars : VariableModes}

theorem bind_nil (mode : Mode) : vars.bind [] mode = vars := by
  funext name
  exact if_neg List.not_mem_nil

theorem bind_bind (names later : List String) (mode : Mode) :
    (vars.bind names mode).bind later mode = vars.bind (names ++ later) mode := by
  funext name
  simp only [bind, List.mem_append]
  split
  · rw [if_pos (Or.inr ‹_›)]
  · simp only [*, or_false]

theorem bind_congr {names others : List String} (h : ∀ name, name ∈ names ↔ name ∈ others)
    (mode : Mode) : vars.bind names mode = vars.bind others mode := by
  funext name
  simp only [bind, h name]

end VariableModes

theorem lookupMode_cons (scope : Scope) (scopes : List Scope) (name : String) :
    lookupMode (scope :: scopes) name = (scope.lookup name).or (lookupMode scopes name) := by
  rw [lookupMode, List.findSome?_cons]
  cases scope.lookup name <;> rfl

theorem lookupMode_open (scopes : List Scope) : lookupMode ([] :: scopes) = lookupMode scopes := by
  funext name
  exact lookupMode_cons [] scopes name

theorem lookupMode_bindMode {scopes : List Scope} (h : scopes ≠ []) (name : String) (mode : Mode) :
    lookupMode (bindMode scopes name mode) = VariableModes.bind (lookupMode scopes) [name] mode := by
  obtain ⟨scope, outer, rfl⟩ := List.exists_cons_of_ne_nil h
  funext other
  rw [bindMode, lookupMode_cons, List.lookup_cons, VariableModes.bind]
  by_cases hname : other = name
  · simp [hname]
  · simp [hname, beq_eq_false_iff_ne.mpr hname, lookupMode_cons]

theorem lookupMode_parameters (scopes : List Scope) (parameters : List Parameter) :
    lookupMode (parameterScope parameters :: scopes) =
      VariableModes.bindParameters (lookupMode scopes) parameters := by
  funext name
  rw [lookupMode_cons, VariableModes.bindParameters, VariableModes.bind]
  induction parameters with
  | nil => rfl
  | cons p parameters ih =>
    rw [parameterScope, List.map_cons, List.lookup_cons]
    by_cases hname : name = p.name
    · simp [hname]
    · simpa [hname, beq_eq_false_iff_ne.mpr hname, Ne.symm hname, parameterScope] using ih

theorem lookupMode_contextItem (scopes : List Scope) :
    lookupMode ([(contextItemName, .host)] :: scopes) =
      VariableModes.bind (lookupMode scopes) [contextItemName] .host := by
  rw [← lookupMode_open scopes, ← lookupMode_bindMode (List.cons_ne_nil _ _)]
  rfl

namespace ClauseScope

variable {s : ClauseScope}

/-- What the rules know of the scopes of a pipeline. -/
def rules (s : ClauseScope) : PipelineScope := ⟨lookupMode s.scopes, s.introduced⟩

theorem scopes_introduce (h : s.scopes ≠ []) (name : String) (mode : Mode) :
    (s.introduce name mode).scopes ≠ [] := by
  obtain ⟨scope, outer, hs⟩ := List.exists_cons_of_ne_nil h
  rw [introduce, hs]
  exact List.cons_ne_nil _ _

theorem introduce_rules (h : s.scopes ≠ []) (name : String) (mode : Mode) :
    (s.introduce name mode).rules = ⟨s.rules.vars.bind [name] mode, s.introduced ++ [name]⟩ := by
  rw [rules, introduce, lookupMode_bindMode h, rules]

/-- Names that are introduced one after the other. -/
theorem introduceAll_rules (names : List String) (h : s.scopes ≠ []) :
    (names.foldl (fun s name => s.introduce name .host) s).scopes ≠ [] ∧
      (names.foldl (fun s name => s.introduce name .host) s).stream = s.stream ∧
      (names.foldl (fun s name => s.introduce name .host) s).rules =
        ⟨s.rules.vars.bind names .host, s.introduced ++ names⟩ := by
  induction names generalizing s with
  | nil => exact ⟨h, rfl, by rw [VariableModes.bind_nil, List.append_nil]; rfl⟩
  | cons name names ih =>
    obtain ⟨hscopes, hstream, hrules⟩ := ih (s := s.introduce name .host) (scopes_introduce h name .host)
    refine ⟨hscopes, hstream, hrules.trans ?_⟩
    rw [introduce_rules h, VariableModes.bind_bind, introduce, List.append_assoc]
    rfl

theorem introduceOption_eq (name : Option String) :
    s.introduceOption name .host = name.toList.foldl (fun s name => s.introduce name .host) s := by
  cases name <;> rfl

/-- Names that are bound once more in the innermost scope. -/
theorem lookupMode_rebind (names : List String) {scopes : List Scope} (h : scopes ≠ []) :
    names.foldl (fun scopes name => bindMode scopes name .host) scopes ≠ [] ∧
      lookupMode (names.foldl (fun scopes name => bindMode scopes name .host) scopes) =
        VariableModes.bind (lookupMode scopes) names .host := by
  induction names generalizing scopes with
  | nil => exact ⟨h, (VariableModes.bind_nil _).symm⟩
  | cons name names ih =>
    have hne : bindMode scopes name .host ≠ [] := by
      obtain ⟨scope, outer, rfl⟩ := List.exists_cons_of_ne_nil h
      exact List.cons_ne_nil _ _
    obtain ⟨hscopes, hlookup⟩ := ih hne
    refine ⟨hscopes, hlookup.trans ?_⟩
    rw [lookupMode_bindMode h, VariableModes.bind_bind]
    rfl

/-- Grouping binds its keys and all that was introduced before. -/
theorem afterGrouping_rules (h : s.scopes ≠ []) (names : List String) :
    (s.afterGrouping names).scopes ≠ [] ∧ (s.afterGrouping names).stream = s.stream ∧
      (s.afterGrouping names).rules =
        ⟨s.rules.vars.bind (s.introduced ++ names) .host, s.introduced ++ names⟩ := by
  obtain ⟨hscopes, hstream, hrules⟩ := introduceAll_rules names h
  obtain ⟨hvars, hintroduced⟩ := PipelineScope.mk.inj hrules
  obtain ⟨hne, hlookup⟩ := lookupMode_rebind (s.introduced ++ names) hscopes
  have hagain (name : String) :
      name ∈ names ++ (s.introduced ++ names) ↔ name ∈ s.introduced ++ names := by
    simp only [List.mem_append]
    tauto
  rw [afterGrouping, hintroduced]
  refine ⟨hne, hstream, ?_⟩
  rw [rules, hlookup, hvars, VariableModes.bind_bind, VariableModes.bind_congr hagain]

end ClauseScope

/-! ## The judgement -/

/-- A pass and what the rules make of the same part. While it runs the declarations meet `Inv`. If it
succeeds, so do the rules, with what `V` says; the rules succeed only if it does, where `Total` holds. -/
structure Pass.Follows (Inv : Declarations → Prop) (Total : Prop) {τ β ρ : Type}
    (x : Pass (Analysed τ β)) (r : Option ρ) (V : τ → β → ρ → Prop) : Prop where
  sound : ∀ {D t b E}, Inv D → x.run D = ((t, .ok b), E) → Inv E ∧ ∃ s, r = some s ∧ V t b s
  total : Total → ∀ {D}, Inv D → ∀ {s}, r = some s → ∃ t b E, x.run D = ((t, .ok b), E)

/-- The mode of the function's body is found as the rules have it. -/
structure CalleeMode.Follows (Inv : Declarations → Prop) (Total : Prop) (callee : CalleeMode)
    (calls : CallModes) (key : FunctionKey) : Prop where
  sound : ∀ {D mode E}, Inv D → (callee key).run D = (.ok mode, E) → Inv E ∧ calls key = some mode
  total : Total → ∀ {D}, Inv D → calls key ≠ none → ∃ mode E, (callee key).run D = (.ok mode, E)

/-- The functions that have modes are the declared ones. -/
def CallModes.Declared (Inv : Declarations → Prop) (calls : CallModes) : Prop :=
  ∀ D, Inv D → ∀ key, D.any (·.key == key) = true ↔ calls key ≠ none

/-- No node of the part has a mode, and the modes of the functions called in it are found as the rules
have them. -/
def Awaits (Inv : Declarations → Prop) (Total : Prop) (callee : CalleeMode) (calls : CallModes)
    {τ : Type} [HasNodes τ] (t : τ) : Prop :=
  Everywhere (fun d => d.slot = .empty ∧ ∀ key, d.call? = some key →
    callee.Follows Inv Total calls key) t

namespace Pass.Follows

variable {Inv : Declarations → Prop} {Total : Prop} {τ υ β γ ρ σ : Type} {x : Pass (Analysed τ β)}
  {r : Option ρ} {V : τ → β → ρ → Prop}

/-- A pass that analyses nothing. -/
theorem done {t : τ} {q : EngineResult β} (hs : ∀ b, q = .ok b → ∃ s, r = some s ∧ V t b s)
    (ht : ∀ s, r = some s → ∃ b, q = .ok b) : Follows Inv Total (Pass.done t q) r V where
  sound hD hrun := by
    cases hrun
    exact ⟨hD, hs _ rfl⟩
  total _ D _ s hr := by
    obtain ⟨b, rfl⟩ := ht s hr
    exact ⟨t, b, D, rfl⟩

theorem leaf {t : τ} {b : β} {s : ρ} (h : V t b s) : Follows Inv Total (Pass.done t (.ok b)) (some s) V :=
  .done (fun _ hb => by cases hb; exact ⟨s, rfl, h⟩) fun _ _ => ⟨b, rfl⟩

/-- The tree is rebuilt around an analysed part. -/
theorem wrap {tree : τ → υ} {value : β → γ} {make : ρ → σ} {W : υ → γ → σ → Prop}
    (h : Follows Inv Total x r V) (hV : ∀ t b s, V t b s → W (tree t) (value b) (make s)) :
    Follows Inv Total (Pass.wrap x tree value) (r >>= fun s => pure (make s)) W where
  sound {D u c E} hD hrun := by
    rw [run_wrap] at hrun
    rcases hx : x.run D with ⟨⟨t, e | b⟩, F⟩
    all_goals
      rw [hx] at hrun
      cases hrun
    obtain ⟨hF, s, rfl, hs⟩ := h.sound hD hx
    exact ⟨hF, make s, rfl, hV t b s hs⟩
  total hT {D} hD s hs := by
    obtain ⟨s, rfl, -⟩ := Option.bind_eq_some_iff.mp hs
    obtain ⟨t, b, E, hx⟩ := h.total hT hD rfl
    exact ⟨tree t, value b, E, by rw [run_wrap, hx]; rfl⟩

/-- A first part, and what is left of the tree around it. -/
theorem andThen {second : υ} {y : β → Pass (Analysed υ γ)} {δ ω : Type} {tree : τ × υ → ω}
    {value : γ → δ} {rest : ρ → Option σ} {W : ω → δ → σ → Prop} (h : Follows Inv Total x r V)
    (hy : ∀ t b s, V t b s → Follows Inv Total (Pass.wrap (y b) (fun u => tree (t, u)) value) (rest s) W) :
    Follows Inv Total (Pass.wrap (Pass.andThen x second y) tree value) (r >>= rest) W := by
  have hrun {D E : Declarations} {t : τ} {b : β} (hx : x.run D = ((t, .ok b), E)) :
      (Pass.wrap (Pass.andThen x second y) tree value).run D =
        (Pass.wrap (y b) (fun u => tree (t, u)) value).run E := by
    rw [run_wrap, run_andThen, hx]
    rfl
  refine ⟨fun {D u c E} hD hw => ?_, fun hT {D} hD s hs => ?_⟩
  · rcases hx : x.run D with ⟨⟨t, e | b⟩, F⟩
    · rw [run_wrap, run_andThen, hx] at hw
      cases hw
    · rw [hrun hx] at hw
      obtain ⟨hF, s, rfl, hs⟩ := h.sound hD hx
      exact (hy t b s hs).sound hF hw
  · obtain ⟨s, rfl, hs⟩ := Option.bind_eq_some_iff.mp hs
    obtain ⟨t, b, E, hx⟩ := h.total hT hD rfl
    obtain ⟨hE, _, hr, hV⟩ := h.sound hD hx
    cases hr
    rw [hrun hx]
    exact (hy t b s hV).total hT hE hs

end Pass.Follows

theorem Pass.wrap_wrap {τ υ ω β γ δ : Type} (x : Pass (Analysed τ β)) (tree : τ → υ) (tree' : υ → ω)
    (value : β → γ) (value' : γ → δ) :
    Pass.wrap (Pass.wrap x tree value) tree' value' = Pass.wrap x (tree' ∘ tree) (value' ∘ value) := by
  funext D
  change ((_, Except.map value' (Except.map value (x D).1.2)), _) = ((_, Except.map _ (x D).1.2), _)
  cases (x D).1.2 <;> rfl

/-! ## Expressions and clauses -/

theorem Mode.rowWise_eq_byItems (mode : Mode) : mode.rowWise = mode.byItems := by cases mode <;> rfl

theorem lookupResultMode_eq (mode : Mode) :
    lookupResultMode mode = if mode = .columns then .columns else mode.byItems := by cases mode <;> rfl

theorem letMode_eq (stream value : Mode) :
    letMode stream value = if stream = .host then value else .host := by
  cases stream <;> rfl

theorem sequenceMode_eq (members : List Expression) :
    sequenceMode members.isEmpty (members.all (·.slot.getD.isParallel)) =
      if members ≠ [] ∧ ∀ e ∈ members, e.slot.getD.isParallel then .rows else .host := by
  cases members <;> simp [sequenceMode]

/-- The pass gives the tree of the rules, and its mode. -/
def Expression.Shows (t : Expression) (mode : Mode) (s : Expression) : Prop := s = t ∧ t.slot.getD = mode

/-- The pass gives the parts of the rules, and the mode that the table has for them. -/
def ExpressionKind.Shows (calls : CallModes) (vars : VariableModes) (t : ExpressionKind) (mode : Mode)
    (s : ExpressionKind) : Prop := s = t ∧ mode = t.rule calls vars

/-- The pass gives the parts of the rules, and what is in scope after them. The first clause decides on
the stream. -/
structure ClauseKind.Shows (isFirst : Bool) (scope : ClauseScope) (t : ClauseKind) (after : ClauseScope)
    (s : ClauseKind) : Prop where
  tree : s = t
  scopes : after.scopes ≠ []
  stream : after.stream = if isFirst then t.streamMode else scope.stream
  rules : after.rules = t.scopeAfter after.stream scope.rules

/-- The pass gives the clauses of the rules, and what is in scope after them, in the stream that is given
or that the first clause starts. -/
structure ClausesShow (stream : Option Mode) (t : List Clause) (after : ClauseScope)
    (s : List Clause × PipelineScope) : Prop where
  rules : s = (t, after.rules)
  stream : after.stream = stream.getD (pipelineMode t)

/-- A clause that starts no distributed stream leaves the stream as it is. -/
theorem stream_of_host {t : ClauseKind} {isFirst : Bool} {scope : ClauseScope} (h : t.streamMode = .host)
    (hfirst : isFirst = true → scope.stream = .host) :
    scope.stream = if isFirst then t.streamMode else scope.stream := by
  cases isFirst with
  | true => rw [if_pos rfl, h, hfirst rfl]
  | false => rfl

/-- A clause that binds nothing. -/
theorem ClauseKind.Shows.unbound {t s : ClauseKind} {isFirst : Bool} {scope : ClauseScope} (hs : s = t)
    (hmode : t.streamMode = .host) (hnone : t.introduces = [])
    (hafter : ∀ stream rules, t.scopeAfter stream rules =
      ⟨rules.vars.bind t.introduces .host, rules.introduced ++ t.introduces⟩)
    (hscopes : scope.scopes ≠ []) (hfirst : isFirst = true → scope.stream = .host) :
    ClauseKind.Shows isFirst scope t scope s := by
  refine ⟨hs, hscopes, stream_of_host hmode hfirst, ?_⟩
  rw [hafter, hnone, VariableModes.bind_nil, List.append_nil]

/-- The source of a first `for` decides on the stream. -/
theorem ClauseKind.Shows.forEach {name : String} {place : Option String} {allowingEmpty isFirst : Bool}
    {source : Expression} {scope : ClauseScope} (hscopes : scope.scopes ≠ []) :
    ClauseKind.Shows isFirst scope (.forEach name place allowingEmpty source)
      (((if isFirst then { scope with stream := source.slot.getD.rowWise } else scope).introduce name
        .host).introduceOption place .host) (.forEach name place allowingEmpty source) := by
  rw [ClauseScope.introduceOption_eq]
  cases isFirst with
  | true =>
    obtain ⟨hne, hstream, hrules⟩ := ClauseScope.introduceAll_rules (name :: place.toList)
      (s := { scope with stream := source.slot.getD.rowWise }) hscopes
    exact ⟨rfl, hne, hstream.trans (Mode.rowWise_eq_byItems _), hrules⟩
  | false =>
    obtain ⟨hne, hstream, hrules⟩ :=
      ClauseScope.introduceAll_rules (name :: place.toList) (s := scope) hscopes
    exact ⟨rfl, hne, hstream, hrules⟩

section
variable {Inv : Declarations → Prop} {Total : Prop} {callee : CalleeMode} {calls : CallModes}
  {scopes : List Scope}

namespace Pass.Follows

/-- An expression that has no mode yet. -/
theorem expression {kind : ExpressionKind} (position : SourcePosition)
    (h : Follows Inv Total (kind.analyse callee scopes) (kind.ruled calls (lookupMode scopes))
      (ExpressionKind.Shows calls (lookupMode scopes))) :
    Follows Inv Total ((Expression.mk kind position .empty).analyse callee scopes)
      ((Expression.mk kind position .empty).ruled calls (lookupMode scopes)) Expression.Shows where
  sound {D t b E} hD hrun := by
    rw [Expression.analyse_run] at hrun
    rcases hx : (kind.analyse callee scopes).run D with ⟨⟨t', e | mode⟩, F⟩
    all_goals
      rw [hx] at hrun
      cases hrun
    obtain ⟨hF, s, hs, rfl, rfl⟩ := h.sound hD hx
    exact ⟨hF, _, by rw [Expression.ruled, hs]; rfl, rfl, rfl⟩
  total hT {D} hD s hs := by
    rw [Expression.ruled] at hs
    obtain ⟨s, hs, -⟩ := Option.bind_eq_some_iff.mp hs
    obtain ⟨t, b, E, hx⟩ := h.total hT hD hs
    exact ⟨_, b, E, by rw [Expression.analyse_run, hx]⟩

/-- Two parts of an expression that is evaluated on the host. -/
theorem two {left right : Expression} {make : Expression → Expression → ExpressionKind}
    {vars : VariableModes} (hrule : ∀ l r, (make l r).rule calls vars = .host)
    (hl : Follows Inv Total (left.analyse callee scopes) (left.ruled calls vars) Expression.Shows)
    (hr : Follows Inv Total (right.analyse callee scopes) (right.ruled calls vars) Expression.Shows) :
    Follows Inv Total
      (Pass.wrap (Pass.andThen (left.analyse callee scopes) right fun _ => right.analyse callee scopes)
        (fun (l, r) => make l r) fun _ => .host)
      (return make (← left.ruled calls vars) (← right.ruled calls vars))
      (ExpressionKind.Shows calls vars) := by
  refine .andThen hl fun l _ _ hl => .wrap hr fun r _ _ hr => ?_
  rw [hl.1, hr.1]
  exact ⟨rfl, (hrule l r).symm⟩

/-- Work over an input with another part in scopes of its own. -/
theorem overInput {input part : Expression} {inner : List Scope}
    {make : Expression → Expression → ExpressionKind} {value : Mode → Mode} {vars vars' : VariableModes}
    (hrule : ∀ i p, (make i p).rule calls vars = value i.slot.getD)
    (hi : Follows Inv Total (input.analyse callee scopes) (input.ruled calls vars) Expression.Shows)
    (hp : Follows Inv Total (part.analyse callee inner) (part.ruled calls vars') Expression.Shows) :
    Follows Inv Total
      (Pass.wrap (Pass.andThen (input.analyse callee scopes) part fun mode =>
        Pass.wrap (part.analyse callee inner) id fun _ => mode) (fun (i, p) => make i p) value)
      (return make (← input.ruled calls vars) (← part.ruled calls vars'))
      (ExpressionKind.Shows calls vars) := by
  refine .andThen hi fun i mode _ hi => ?_
  rw [Pass.wrap_wrap]
  refine .wrap hp fun p _ _ hp => ?_
  rw [hi.1, hp.1]
  exact ⟨rfl, (congrArg value hi.2.symm).trans (hrule i p).symm⟩

/-- A clause, and the ones after it in the scope that it leaves. -/
theorem clause {kind : ClauseKind} (position : SourcePosition) {rest : List Clause} {isFirst : Bool}
    {scope : ClauseScope} {stream : Option Mode} (hstream : isFirst = stream.isNone)
    (hscope : scope.stream = stream.getD .host)
    (h : Follows Inv Total (kind.analyse callee isFirst scope position)
      (kind.ruled calls (lookupMode scope.scopes)) (ClauseKind.Shows isFirst scope))
    (hrest : ∀ after : ClauseScope, after.scopes ≠ [] →
      Follows Inv Total (analyseClauses callee false after rest)
        (clausesRuled calls (some after.stream) after.rules rest)
        (ClausesShow (some after.stream))) :
    Follows Inv Total (analyseClauses callee isFirst scope (.mk kind position .empty :: rest))
      (clausesRuled calls stream scope.rules (.mk kind position .empty :: rest)) (ClausesShow stream) := by
  have hrun := analyseClauses_cons_run callee isFirst scope kind position .empty rest
  have hmode {t : ClauseKind} {after : ClauseScope} {s : ClauseKind}
      (hs : ClauseKind.Shows isFirst scope t after s) : stream.getD s.streamMode = after.stream := by
    rw [hs.stream, hs.tree, hstream, hscope]
    cases stream <;> rfl
  have hruled {t : ClauseKind} {after : ClauseScope} {s : ClauseKind}
      (hs : ClauseKind.Shows isFirst scope t after s)
      (hr : kind.ruled calls (lookupMode scope.scopes) = some s) :
      clausesRuled calls stream scope.rules (.mk kind position .empty :: rest) =
        (clausesRuled calls (some after.stream) after.rules rest).map
          fun r => (.mk t position ⟨some after.stream⟩ :: r.1, r.2) := by
    rw [clausesRuled, ClauseScope.rules, hr]
    simp only [Option.bind_eq_bind, Option.bind_some, hmode hs]
    rw [hs.tree, hs.rules, ClauseScope.rules]
    cases clausesRuled calls (some after.stream) _ rest <;> rfl
  refine ⟨fun {D t b E} hD hx => ?_, fun hT {D} hD s hs => ?_⟩
  · rw [hrun] at hx
    rcases hk : (kind.analyse callee isFirst scope position).run D with ⟨⟨t, e | after⟩, F⟩
    · rw [hk] at hx
      cases hx
    · obtain ⟨hF, s, hr, hs⟩ := h.sound hD hk
      rcases hy : (analyseClauses callee false after rest).run F with ⟨⟨ts, e | last⟩, G⟩
      all_goals
        simp only [hk, hy] at hx
        cases hx
      obtain ⟨hG, r, hrr, rfl, hlast⟩ := (hrest after hs.scopes).sound hF hy
      refine ⟨hG, _, by rw [hruled hs hr, hrr]; rfl, rfl, hlast.trans ?_⟩
      rw [← hmode hs, hs.tree]
      rfl
  · rw [clausesRuled] at hs
    obtain ⟨r, hr, -⟩ := Option.bind_eq_some_iff.mp hs
    obtain ⟨t, after, F, hk⟩ := h.total hT hD hr
    obtain ⟨hF, _, hr', hshows⟩ := h.sound hD hk
    obtain rfl := Option.some.inj (hr.symm.trans hr')
    rw [← clausesRuled, hruled hshows hr] at hs
    obtain ⟨r', hr', -⟩ := Option.map_eq_some_iff.mp hs
    obtain ⟨ts, last, E, hy⟩ := (hrest after hshows.scopes).total hT hF hr'
    refine ⟨.mk t position (ModeSlot.empty.set after.stream) :: ts, last, E, ?_⟩
    rw [hrun, hk]
    simp only [hy]

end Pass.Follows

section
variable (hknown : calls.Declared Inv)
include hknown

/-- The mode of a call is that of the built-in or declared function. -/
theorem callMode_follows {name : String} {arity : Nat} {gap : Bool}
    (hcall : gap = false → Builtin.find? name arity = none → callee.Follows Inv Total calls (name, arity))
    {D : Declarations} (hD : Inv D) :
    (∀ {mode E}, (callMode callee name arity gap (D.any (·.key == (name, arity)))).run D = (.ok mode, E) →
      Inv E ∧ calls.Knows (name, arity) ∧
        mode = if gap then .host else match Builtin.find? name arity with
          | some builtin => builtin.mode
          | none => (calls (name, arity)).getD .host) ∧
    (Total → calls.Knows (name, arity) → ∃ mode E,
      (callMode callee name arity gap (D.any (·.key == (name, arity)))).run D = (.ok mode, E)) := by
  unfold callMode CallModes.Knows
  cases hfind : Builtin.find? name arity with
  | some builtin =>
    refine ⟨fun hrun => ?_, fun _ _ => ⟨_, D, rfl⟩⟩
    cases hrun
    exact ⟨hD, .inl (by simp), rfl⟩
  | none =>
    have hdeclared : D.any (·.key == (name, arity)) = true ↔ calls (name, arity) ≠ none :=
      hknown D hD (name, arity)
    simp only [ne_eq, not_true_eq_false, false_or]
    cases hdecl : D.any (·.key == (name, arity)) with
    | false =>
      refine ⟨nofun, fun _ hk => ?_⟩
      rw [hdeclared.mpr hk] at hdecl
      cases hdecl
    | true =>
      have hk := hdeclared.mp hdecl
      cases gap with
      | true =>
        refine ⟨fun hrun => ?_, fun _ _ => ⟨.host, D, rfl⟩⟩
        cases hrun
        exact ⟨hD, hk, rfl⟩
      | false =>
        have hfollows := hcall rfl hfind
        refine ⟨fun hrun => ?_, fun hT _ => hfollows.total hT hD hk⟩
        obtain ⟨hE, hmode⟩ := hfollows.sound hD hrun
        exact ⟨hE, hk, by rw [hmode]; rfl⟩

/-- The pass over a call of a named function, once its arguments are passed over. -/
theorem Pass.Follows.functionCall {name : String} {given : List (Option Expression)} {vars : VariableModes}
    (hcall : ∀ key, (ExpressionKind.functionCall name given).call? = some key →
      callee.Follows Inv Total calls key)
    (h : Follows Inv Total (analyseArguments callee scopes given) (argumentsRuled calls vars given)
      fun t _ s => s = t ∧ ExpressionKind.Passes.gaps t = ExpressionKind.Passes.gaps given) :
    Follows Inv Total ((ExpressionKind.functionCall name given).analyse callee scopes)
      ((ExpressionKind.functionCall name given).ruled calls vars) (ExpressionKind.Shows calls vars) := by
  have hcall' (t : List (Option Expression))
      (hgaps : ExpressionKind.Passes.gaps t = ExpressionKind.Passes.gaps given) :
      t.any Option.isNone = false → Builtin.find? name t.length = none →
        callee.Follows Inv Total calls (name, t.length) := by
    rw [any_isNone_of_gaps hgaps, length_of_gaps hgaps]
    intro hgap hfind
    exact hcall _ (by simp [ExpressionKind.call?, hgap, hfind])
  refine ⟨fun {D t mode E} hD hrun => ?_, fun hT {D} hD s hs => ?_⟩
  · rw [ExpressionKind.functionCall_run] at hrun
    rcases hx : (analyseArguments callee scopes given).run D with ⟨⟨t, e | _⟩, F⟩
    · rw [hx] at hrun
      cases hrun
    · obtain ⟨hF, s, hs, rfl, hgaps⟩ := h.sound hD hx
      rcases hc : (callMode callee name s.length (s.any Option.isNone)
        (F.any (·.key == (name, s.length)))).run F with ⟨e | mode, E⟩
      all_goals
        simp only [hx, hc] at hrun
        cases hrun
      obtain ⟨hE, hknows, hmode⟩ := (callMode_follows hknown (hcall' _ hgaps) hF).1 hc
      refine ⟨hE, .functionCall name s, ?_, rfl, hmode⟩
      rw [ExpressionKind.ruled, hs]
      exact if_pos hknows
  · rw [ExpressionKind.ruled] at hs
    obtain ⟨s, hgiven, hs⟩ := Option.bind_eq_some_iff.mp hs
    obtain ⟨t, _, F, hx⟩ := h.total hT hD hgiven
    obtain ⟨hF, _, hr, rfl, hgaps⟩ := h.sound hD hx
    obtain rfl := Option.some.inj (hgiven.symm.trans hr)
    have hknows : calls.Knows (name, s.length) := by
      by_contra hk
      rw [if_neg hk] at hs
      cases hs
    obtain ⟨mode, E, hcalled⟩ := (callMode_follows hknown (hcall' _ hgaps) hF).2 hT hknows
    refine ⟨.functionCall name s, mode, E, ?_⟩
    rw [ExpressionKind.functionCall_run, hx]
    simp only [hcalled]

/-- A reference to a function asks only whether there is one. -/
theorem functionRef_follows (name : String) (arity : Nat) {vars : VariableModes} :
    Pass.Follows Inv Total ((ExpressionKind.functionRef name arity).analyse callee scopes)
      ((ExpressionKind.functionRef name arity).ruled calls vars) (ExpressionKind.Shows calls vars) := by
  have hknows {D : Declarations} (hD : Inv D) :
      ((Builtin.find? name arity).isSome || D.any (·.key == (name, arity))) = true ↔
        calls.Knows (name, arity) := by
    rw [Bool.or_eq_true, hknown D hD, Option.isSome_iff_ne_none, CallModes.Knows]
  refine ⟨fun {D t mode E} hD hx => ?_, fun _ {D} hD s hs => ?_⟩
  · rw [ExpressionKind.functionRef_run] at hx
    split at hx
    · rename_i h
      cases hx
      exact ⟨hD, _, if_pos ((hknows hD).mp h), rfl, rfl⟩
    · cases hx
  · rw [ExpressionKind.ruled] at hs
    split at hs
    · rename_i h
      exact ⟨_, .host, D, by rw [ExpressionKind.functionRef_run, if_pos ((hknows hD).mpr h)]⟩
    · cases hs

end

mutual
/-- **Passes follow the rules**: an expression without modes gets those of the rules. -/
theorem Expression.follows (hknown : calls.Declared Inv) :
    ∀ (e : Expression) (scopes : List Scope), Awaits Inv Total callee calls e →
    Pass.Follows Inv Total (e.analyse callee scopes) (e.ruled calls (lookupMode scopes)) Expression.Shows
  | .mk kind position slot, scopes, h => by
    obtain ⟨⟨hslot, hcall⟩, hkind⟩ := everywhere_expression.mp h
    obtain rfl : slot = .empty := hslot
    exact .expression position (ExpressionKind.follows hknown kind scopes hkind hcall)

theorem ExpressionKind.follows (hknown : calls.Declared Inv) :
    ∀ (kind : ExpressionKind) (scopes : List Scope), Awaits Inv Total callee calls kind →
    (∀ key, kind.call? = some key → callee.Follows Inv Total calls key) →
    Pass.Follows Inv Total (kind.analyse callee scopes) (kind.ruled calls (lookupMode scopes))
      (ExpressionKind.Shows calls (lookupMode scopes))
  | .literal _, _, _, _ | .contextItem, _, _, _ | .array none, _, _, _ => .leaf ⟨rfl, rfl⟩
  | .varRef name, scopes, _, _ => by
    rw [ExpressionKind.analyse, ExpressionKind.ruled]
    cases h : lookupMode scopes name with
    | none => exact .done nofun nofun
    | some mode => exact .leaf ⟨rfl, by rw [ExpressionKind.rule, h]; rfl⟩
  | .sequence members, scopes, h, _ => by
    rw [ExpressionKind.analyse, ExpressionKind.ruled]
    refine .wrap (members_follow hknown members scopes h) fun t all _ hs => ?_
    obtain ⟨rfl, rfl, hempty⟩ := hs
    exact ⟨rfl, by rw [← hempty, sequenceMode_eq]; rfl⟩
  | .arithmetic op left right, scopes, h, _ => by
    obtain ⟨hl, hr⟩ := everywhere_pair.mp h
    rw [ExpressionKind.analyse, ExpressionKind.ruled]
    exact .two (fun _ _ => rfl) (Expression.follows hknown left scopes hl)
      (Expression.follows hknown right scopes hr)
  | .comparison op left right, scopes, h, _ => by
    obtain ⟨hl, hr⟩ := everywhere_pair.mp h
    rw [ExpressionKind.analyse, ExpressionKind.ruled]
    exact .two (fun _ _ => rfl) (Expression.follows hknown left scopes hl)
      (Expression.follows hknown right scopes hr)
  | .logical op left right, scopes, h, _ => by
    obtain ⟨hl, hr⟩ := everywhere_pair.mp h
    rw [ExpressionKind.analyse, ExpressionKind.ruled]
    exact .two (fun _ _ => rfl) (Expression.follows hknown left scopes hl)
      (Expression.follows hknown right scopes hr)
  | .range first last, scopes, h, _ => by
    obtain ⟨hf, hl⟩ := everywhere_pair.mp h
    rw [ExpressionKind.analyse, ExpressionKind.ruled]
    exact .two (fun _ _ => rfl) (Expression.follows hknown first scopes hf)
      (Expression.follows hknown last scopes hl)
  | .not operand, scopes, h, _ => by
    rw [ExpressionKind.analyse, ExpressionKind.ruled]
    exact .wrap (Expression.follows hknown operand scopes h) fun _ _ _ hs => ⟨congrArg _ hs.1, rfl⟩
  | .conditional condition yes no, scopes, h, _ => by
    obtain ⟨hc, hrest⟩ := everywhere_pair.mp h
    obtain ⟨hy, hn⟩ := everywhere_pair.mp hrest
    rw [ExpressionKind.analyse, ExpressionKind.ruled]
    refine .andThen (Expression.follows hknown condition scopes hc) fun c _ _ hc => ?_
    refine .andThen (Expression.follows hknown yes scopes hy) fun y _ _ hy => ?_
    refine .wrap (Expression.follows hknown no scopes hn) fun n _ _ hn => ?_
    rw [hc.1, hy.1, hn.1]
    exact ⟨rfl, rfl⟩
  | .object pairs, scopes, h, _ => by
    rw [ExpressionKind.analyse, ExpressionKind.ruled]
    exact .wrap (pairs_follow hknown pairs scopes h) fun _ _ _ hs => ⟨congrArg _ hs, rfl⟩
  | .array (some members), scopes, h, _ => by
    rw [ExpressionKind.analyse, ExpressionKind.ruled]
    exact .wrap (Expression.follows hknown members scopes h) fun _ _ _ hs => ⟨by rw [hs.1], rfl⟩
  | .objectLookup object key, scopes, h, _ => by
    obtain ⟨ho, hk⟩ := everywhere_pair.mp h
    rw [ExpressionKind.analyse, ExpressionKind.ruled]
    exact .overInput (fun _ _ => (lookupResultMode_eq _).symm) (Expression.follows hknown object scopes ho)
      (Expression.follows hknown key scopes hk)
  | .arrayLookup array index, scopes, h, _ => by
    obtain ⟨ha, hi⟩ := everywhere_pair.mp h
    rw [ExpressionKind.analyse, ExpressionKind.ruled]
    exact .overInput (fun _ _ => (Mode.rowWise_eq_byItems _).symm) (Expression.follows hknown array scopes ha)
      (Expression.follows hknown index scopes hi)
  | .arrayUnbox array, scopes, h, _ => by
    rw [ExpressionKind.analyse, ExpressionKind.ruled]
    refine .wrap (Expression.follows hknown array scopes h) fun t mode s hs => ⟨by rw [hs.1], ?_⟩
    rw [Mode.rowWise_eq_byItems, ← hs.2]
    rfl
  | .filter sequence predicate, scopes, h, _ => by
    obtain ⟨hs, hp⟩ := everywhere_pair.mp h
    rw [ExpressionKind.analyse, ExpressionKind.ruled, ← lookupMode_contextItem]
    exact .overInput (fun _ _ => (Mode.rowWise_eq_byItems _).symm)
      (Expression.follows hknown sequence scopes hs) (Expression.follows hknown predicate _ hp)
  | .functionCall name given, scopes, h, hcall =>
    .functionCall hknown hcall (arguments_follow hknown given scopes h)
  | .dynamicCall function given, scopes, h, _ => by
    obtain ⟨hf, hg⟩ := everywhere_pair.mp h
    rw [ExpressionKind.analyse, ExpressionKind.ruled]
    refine .andThen (Expression.follows hknown function scopes hf) fun f _ _ hf => ?_
    refine .wrap (arguments_follow hknown given scopes hg) fun g _ _ hg => ?_
    rw [hf.1, hg.1]
    exact ⟨rfl, rfl⟩
  | .inlineFunction parameters _ body, scopes, h, _ => by
    rw [ExpressionKind.analyse, ExpressionKind.ruled, ← lookupMode_parameters]
    exact .wrap (Expression.follows hknown body _ h) fun _ _ _ hs => ⟨by rw [hs.1], rfl⟩
  | .functionRef name arity, scopes, _, _ => functionRef_follows hknown name arity
  | .flwor clauses result, scopes, h, _ => by
    obtain ⟨hc, hr⟩ := everywhere_pair.mp h
    rw [ExpressionKind.analyse, ExpressionKind.ruled]
    have hclauses := clauses_follow hknown clauses true ⟨[] :: scopes, .host, []⟩ none hc
      (List.cons_ne_nil _ _) rfl rfl
    rw [ClauseScope.rules, lookupMode_open] at hclauses
    refine .andThen hclauses fun t after _ hs => ?_
    obtain rfl := hs.rules
    rw [Pass.wrap_wrap]
    refine .wrap (Expression.follows hknown result after.scopes hr) fun r _ _ hr => ?_
    rw [hr.1]
    exact ⟨rfl, hs.stream⟩

theorem members_follow (hknown : calls.Declared Inv) : ∀ (members : List Expression) (scopes : List Scope),
    Awaits Inv Total callee calls members →
    Pass.Follows Inv Total (analyseMembers callee scopes members)
      (membersRuled calls (lookupMode scopes) members)
      fun t all s => s = t ∧ all = t.all (·.slot.getD.isParallel) ∧ t.isEmpty = members.isEmpty
  | [], _, _ => .leaf ⟨rfl, rfl, rfl⟩
  | e :: rest, scopes, h => by
    obtain ⟨he, hrest⟩ := everywhere_cons.mp h
    rw [analyseMembers, membersRuled]
    refine .andThen (Expression.follows hknown e scopes he) fun t _ _ ht => ?_
    rw [Pass.wrap_wrap]
    refine .wrap (members_follow hknown rest scopes hrest) fun ts _ _ hts => ?_
    obtain ⟨rfl, rfl⟩ := ht
    obtain ⟨rfl, rfl, -⟩ := hts
    exact ⟨rfl, rfl, rfl⟩

theorem pairs_follow (hknown : calls.Declared Inv) :
    ∀ (pairs : List (Expression × Expression)) (scopes : List Scope),
    Awaits Inv Total callee calls pairs →
    Pass.Follows Inv Total (analysePairs callee scopes pairs) (pairsRuled calls (lookupMode scopes) pairs)
      fun t _ s => s = t
  | [], _, _ => .leaf rfl
  | (key, value) :: rest, scopes, h => by
    obtain ⟨hpair, hrest⟩ := everywhere_cons.mp h
    obtain ⟨hk, hv⟩ := everywhere_pair.mp hpair
    rw [analysePairs, pairsRuled]
    refine .andThen (Expression.follows hknown key scopes hk) fun k _ _ hk => ?_
    refine .andThen (Expression.follows hknown value scopes hv) fun v _ _ hv => ?_
    refine .wrap (pairs_follow hknown rest scopes hrest) fun ps _ _ hps => ?_
    rw [hk.1, hv.1, hps]

theorem arguments_follow (hknown : calls.Declared Inv) :
    ∀ (given : List (Option Expression)) (scopes : List Scope),
    Awaits Inv Total callee calls given →
    Pass.Follows Inv Total (analyseArguments callee scopes given)
      (argumentsRuled calls (lookupMode scopes) given)
      fun t _ s => s = t ∧ ExpressionKind.Passes.gaps t = ExpressionKind.Passes.gaps given
  | [], _, _ => .leaf ⟨rfl, rfl⟩
  | none :: rest, scopes, h => by
    rw [analyseArguments, argumentsRuled]
    refine .wrap (arguments_follow hknown rest scopes (everywhere_cons.mp h).2) fun _ _ _ hs => ?_
    exact ⟨by rw [hs.1], congrArg (_ :: ·) hs.2⟩
  | some e :: rest, scopes, h => by
    obtain ⟨he, hrest⟩ := everywhere_cons.mp h
    rw [analyseArguments, argumentsRuled]
    refine .andThen (Expression.follows hknown e scopes he) fun t _ _ ht => ?_
    refine .wrap (arguments_follow hknown rest scopes hrest) fun _ _ _ hs => ?_
    exact ⟨by rw [ht.1, hs.1], congrArg (_ :: ·) hs.2⟩

theorem clauses_follow (hknown : calls.Declared Inv) :
    ∀ (clauses : List Clause) (isFirst : Bool) (scope : ClauseScope) (stream : Option Mode),
    Awaits Inv Total callee calls clauses → scope.scopes ≠ [] →
    isFirst = stream.isNone → scope.stream = stream.getD .host →
    Pass.Follows Inv Total (analyseClauses callee isFirst scope clauses)
      (clausesRuled calls stream scope.rules clauses) (ClausesShow stream)
  | [], _, _, _, _, _, _, hstream => .leaf ⟨rfl, hstream⟩
  | .mk kind position slot :: rest, isFirst, scope, stream, h, hscopes, hfirst, hstream => by
    obtain ⟨hclause, hrest⟩ := everywhere_cons.mp h
    obtain ⟨⟨hslot, -⟩, hkind⟩ := everywhere_clause.mp hclause
    obtain rfl : slot = .empty := hslot
    refine .clause position hfirst hstream ?_ fun after hafter =>
      clauses_follow hknown rest false after (some after.stream) hrest hafter rfl rfl
    refine ClauseKind.follows hknown kind isFirst scope position hkind hscopes fun htrue => ?_
    obtain rfl := Option.isNone_iff_eq_none.mp (hfirst.symm.trans htrue)
    exact hstream

theorem ClauseKind.follows (hknown : calls.Declared Inv) :
    ∀ (kind : ClauseKind) (isFirst : Bool) (scope : ClauseScope) (position : SourcePosition),
    Awaits Inv Total callee calls kind → scope.scopes ≠ [] →
    (isFirst = true → scope.stream = .host) →
    Pass.Follows Inv Total (kind.analyse callee isFirst scope position)
      (kind.ruled calls (lookupMode scope.scopes)) (ClauseKind.Shows isFirst scope)
  | .forEach name place allowingEmpty source, isFirst, scope, position, h, hscopes, _ => by
    rw [ClauseKind.analyse, ClauseKind.ruled]
    refine .wrap (Expression.follows hknown source scope.scopes h) fun t mode s hs => ?_
    obtain ⟨rfl, rfl⟩ := hs
    exact .forEach hscopes
  | .letBe name value, isFirst, scope, position, h, hscopes, hfirst => by
    rw [ClauseKind.analyse, ClauseKind.ruled]
    refine .wrap (Expression.follows hknown value scope.scopes h) fun t mode s hs => ?_
    obtain ⟨rfl, rfl⟩ := hs
    refine ⟨rfl, ClauseScope.scopes_introduce hscopes _ _, stream_of_host rfl hfirst, ?_⟩
    rw [ClauseScope.introduce_rules hscopes, letMode_eq]
    rfl
  | .keepWhere condition, isFirst, scope, position, h, hscopes, hfirst => by
    rw [ClauseKind.analyse, ClauseKind.ruled]
    exact .wrap (Expression.follows hknown condition scope.scopes h) fun _ _ _ hs =>
      .unbound (congrArg _ hs.1) rfl rfl (fun _ _ => rfl) hscopes hfirst
  | .orderBy keys, isFirst, scope, position, h, hscopes, hfirst => by
    rw [ClauseKind.analyse, ClauseKind.ruled]
    exact .wrap (orderKeys_follow hknown keys scope.scopes h) fun _ _ _ hs =>
      .unbound (congrArg _ hs) rfl rfl (fun _ _ => rfl) hscopes hfirst
  | .groupBy keys, isFirst, scope, position, h, hscopes, hfirst => by
    rw [ClauseKind.analyse, ClauseKind.ruled]
    refine .wrap (groupKeys_follow hknown keys position scope.scopes h) fun t _ s hs => ?_
    obtain ⟨hne, hstream, hrules⟩ := ClauseScope.afterGrouping_rules hscopes (keys.map (·.variableName))
    refine ⟨congrArg _ hs.1, hne, hstream.trans (stream_of_host rfl hfirst), hrules.trans ?_⟩
    rw [← hs.2]
    rfl
  | .count name, isFirst, scope, position, _, hscopes, hfirst =>
    .leaf ⟨rfl, ClauseScope.scopes_introduce hscopes _ _, stream_of_host rfl hfirst,
      ClauseScope.introduce_rules hscopes _ _⟩

theorem orderKeys_follow (hknown : calls.Declared Inv) :
    ∀ (keys : List (OrderKey Expression)) (scopes : List Scope),
    Awaits Inv Total callee calls keys →
    Pass.Follows Inv Total (analyseOrderKeys callee scopes keys)
      (orderKeysRuled calls (lookupMode scopes) keys) fun t _ s => s = t
  | [], _, _ => .leaf rfl
  | ⟨e, descending, empty⟩ :: rest, scopes, h => by
    obtain ⟨he, hrest⟩ := everywhere_cons.mp h
    rw [analyseOrderKeys, orderKeysRuled]
    refine .andThen (Expression.follows hknown e scopes he) fun t _ _ ht => ?_
    refine .wrap (orderKeys_follow hknown rest scopes hrest) fun ts _ _ hts => ?_
    rw [ht.1, hts]

theorem groupKeys_follow (hknown : calls.Declared Inv) :
    ∀ (keys : List (GroupKey Expression)) (position : SourcePosition) (scopes : List Scope),
    Awaits Inv Total callee calls keys →
    Pass.Follows Inv Total (analyseGroupKeys callee scopes position keys)
      (groupKeysRuled calls (lookupMode scopes) keys)
      fun t _ s => s = t ∧ t.map (·.variableName) = keys.map (·.variableName)
  | [], _, _, _ => .leaf ⟨rfl, rfl⟩
  | ⟨name, none⟩ :: rest, position, scopes, h => by
    rw [analyseGroupKeys, groupKeysRuled]
    cases lookupMode scopes name with
    | none => exact .done nofun nofun
    | some mode =>
      refine .wrap (groupKeys_follow hknown rest position scopes (everywhere_cons.mp h).2)
        fun ts _ _ hts => ?_
      exact ⟨by rw [hts.1], congrArg (_ :: ·) hts.2⟩
  | ⟨name, some e⟩ :: rest, position, scopes, h => by
    obtain ⟨he, hrest⟩ := everywhere_cons.mp h
    rw [analyseGroupKeys, groupKeysRuled]
    refine .andThen (Expression.follows hknown e scopes he) fun t _ _ ht => ?_
    refine .wrap (groupKeys_follow hknown rest position scopes hrest) fun ts _ _ hts => ?_
    exact ⟨by rw [ht.1, hts.1], congrArg (_ :: ·) hts.2⟩
end

end
end HybridQuery
