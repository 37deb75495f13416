import HybridQuery.Proofs.Modes.Modules

/-!
# Constants in place of expressions on the host

A sub-expression that is evaluated on the host may be folded to a literal, which is on the host, too. By the
rules of modes this changes the mode of no other node.

* `Expression.Folds`, `QueryModule.Folds`: parts in which sub-expressions on the host are folded.
* `FoldsInto`: what the rules make of a folded part. Its lemmas follow the ways in which the rules put
  parts together.
* `Expression.folds_ruled`: the rules give a folded expression the same modes.
-/

namespace HybridQuery

/-! ## Folded parts -/

mutual
/-- An expression, and one in which some sub-expressions of it that are on the host are folded to
literals. `S` relates the modes of nodes in the same place. -/
inductive Expression.Folds (S : ModeSlot → ModeSlot → Prop) : Expression → Expression → Prop
  | keep {k k' : ExpressionKind} {slot slot' : ModeSlot} (position : SourcePosition)
      (hs : S slot slot') (h : ExpressionKind.Folds S k k') :
      Expression.Folds S (.mk k position slot) (.mk k' position slot')
  | fold {e : Expression} {slot' : ModeSlot} (value : Json) (position : SourcePosition)
      (host : e.slot = ⟨some .host⟩) (hs : S e.slot slot') :
      Expression.Folds S e (.mk (.literal value) position slot')

/-- The same of what expressions are. -/
inductive ExpressionKind.Folds (S : ModeSlot → ModeSlot → Prop) : ExpressionKind → ExpressionKind → Prop
  | literal (value : Json) : ExpressionKind.Folds S (.literal value) (.literal value)
  | sequence {es es' : List Expression} (h : List.Forall₂ (Expression.Folds S) es es') :
      ExpressionKind.Folds S (.sequence es) (.sequence es')
  | varRef (name : String) : ExpressionKind.Folds S (.varRef name) (.varRef name)
  | contextItem : ExpressionKind.Folds S .contextItem .contextItem
  | arithmetic {l l' r r' : Expression} (op : ArithmeticOp) (hl : Expression.Folds S l l')
      (hr : Expression.Folds S r r') :
      ExpressionKind.Folds S (.arithmetic op l r) (.arithmetic op l' r')
  | comparison {l l' r r' : Expression} (op : ComparisonOp) (hl : Expression.Folds S l l')
      (hr : Expression.Folds S r r') :
      ExpressionKind.Folds S (.comparison op l r) (.comparison op l' r')
  | logical {l l' r r' : Expression} (op : LogicalOp) (hl : Expression.Folds S l l')
      (hr : Expression.Folds S r r') : ExpressionKind.Folds S (.logical op l r) (.logical op l' r')
  | not {e e' : Expression} (h : Expression.Folds S e e') : ExpressionKind.Folds S (.not e) (.not e')
  | conditional {c c' yes yes' no no' : Expression} (hc : Expression.Folds S c c')
      (hy : Expression.Folds S yes yes') (hn : Expression.Folds S no no') :
      ExpressionKind.Folds S (.conditional c yes no) (.conditional c' yes' no')
  | range {first first' last last' : Expression} (hf : Expression.Folds S first first')
      (hl : Expression.Folds S last last') :
      ExpressionKind.Folds S (.range first last) (.range first' last')
  | object {ps ps' : List (Expression × Expression)} (h : List.Forall₂ (Both (Expression.Folds S)) ps ps') :
      ExpressionKind.Folds S (.object ps) (.object ps')
  | array {m m' : Option Expression} (h : Option.Rel (Expression.Folds S) m m') :
      ExpressionKind.Folds S (.array m) (.array m')
  | objectLookup {o o' key key' : Expression} (ho : Expression.Folds S o o')
      (hk : Expression.Folds S key key') :
      ExpressionKind.Folds S (.objectLookup o key) (.objectLookup o' key')
  | arrayLookup {a a' index index' : Expression} (ha : Expression.Folds S a a')
      (hi : Expression.Folds S index index') :
      ExpressionKind.Folds S (.arrayLookup a index) (.arrayLookup a' index')
  | arrayUnbox {a a' : Expression} (h : Expression.Folds S a a') :
      ExpressionKind.Folds S (.arrayUnbox a) (.arrayUnbox a')
  | filter {s s' p p' : Expression} (hs : Expression.Folds S s s') (hp : Expression.Folds S p p') :
      ExpressionKind.Folds S (.filter s p) (.filter s' p')
  | functionCall {as as' : List (Option Expression)} (name : String)
      (h : List.Forall₂ (Option.Rel (Expression.Folds S)) as as') :
      ExpressionKind.Folds S (.functionCall name as) (.functionCall name as')
  | dynamicCall {f f' : Expression} {as as' : List (Option Expression)} (hf : Expression.Folds S f f')
      (h : List.Forall₂ (Option.Rel (Expression.Folds S)) as as') :
      ExpressionKind.Folds S (.dynamicCall f as) (.dynamicCall f' as')
  | inlineFunction {e e' : Expression} (parameters : List Parameter) (returnType : SequenceType)
      (h : Expression.Folds S e e') :
      ExpressionKind.Folds S (.inlineFunction parameters returnType e)
        (.inlineFunction parameters returnType e')
  | functionRef (name : String) (arity : Nat) :
      ExpressionKind.Folds S (.functionRef name arity) (.functionRef name arity)
  | flwor {cs cs' : List Clause} {r r' : Expression} (hc : List.Forall₂ (Clause.Folds S) cs cs')
      (hr : Expression.Folds S r r') : ExpressionKind.Folds S (.flwor cs r) (.flwor cs' r')

/-- The same of clauses. -/
inductive Clause.Folds (S : ModeSlot → ModeSlot → Prop) : Clause → Clause → Prop
  | keep {k k' : ClauseKind} {slot slot' : ModeSlot} (position : SourcePosition) (hs : S slot slot')
      (h : ClauseKind.Folds S k k') : Clause.Folds S (.mk k position slot) (.mk k' position slot')

/-- The same of what clauses are. -/
inductive ClauseKind.Folds (S : ModeSlot → ModeSlot → Prop) : ClauseKind → ClauseKind → Prop
  | forEach {e e' : Expression} (name : String) (place : Option String) (allowingEmpty : Bool)
      (h : Expression.Folds S e e') :
      ClauseKind.Folds S (.forEach name place allowingEmpty e) (.forEach name place allowingEmpty e')
  | letBe {e e' : Expression} (name : String) (h : Expression.Folds S e e') :
      ClauseKind.Folds S (.letBe name e) (.letBe name e')
  | keepWhere {e e' : Expression} (h : Expression.Folds S e e') :
      ClauseKind.Folds S (.keepWhere e) (.keepWhere e')
  | orderBy {ks ks' : List (OrderKey Expression)} (h : List.Forall₂ (OrderKey.Folds S) ks ks') :
      ClauseKind.Folds S (.orderBy ks) (.orderBy ks')
  | groupBy {ks ks' : List (GroupKey Expression)} (h : List.Forall₂ (GroupKey.Folds S) ks ks') :
      ClauseKind.Folds S (.groupBy ks) (.groupBy ks')
  | count (name : String) : ClauseKind.Folds S (.count name) (.count name)

/-- The same of keys to order by. -/
inductive OrderKey.Folds (S : ModeSlot → ModeSlot → Prop) : OrderKey Expression → OrderKey Expression → Prop
  | mk {e e' : Expression} (descending : Bool) (empty : EmptyOrder) (h : Expression.Folds S e e') :
      OrderKey.Folds S ⟨e, descending, empty⟩ ⟨e', descending, empty⟩

/-- The same of keys to group by. -/
inductive GroupKey.Folds (S : ModeSlot → ModeSlot → Prop) : GroupKey Expression → GroupKey Expression → Prop
  | mk {e e' : Option Expression} (name : String) (h : Option.Rel (Expression.Folds S) e e') :
      GroupKey.Folds S ⟨name, e⟩ ⟨name, e'⟩
end

/-- The same of declared functions. -/
structure FunctionDeclaration.Folds (S : ModeSlot → ModeSlot → Prop) (d d' : FunctionDeclaration) : Prop where
  name : d'.name = d.name
  parameters : d'.parameters = d.parameters
  returnType : d'.returnType = d.returnType
  position : d'.position = d.position
  body : d.body.Folds S d'.body

/-- A module, and one in which some sub-expressions that are on the host are folded to literals. -/
structure QueryModule.Folds (S : ModeSlot → ModeSlot → Prop) (m m' : QueryModule) : Prop where
  functions : List.Forall₂ (FunctionDeclaration.Folds S) m.functions m'.functions
  body : m.body.Folds S m'.body

/-- The node in the other part has no mode yet. -/
abbrev Unread (_ slot' : ModeSlot) : Prop := slot' = .empty

/-! ## The rules for folded parts -/

/-- The rules have modes for the folded part, which stands as `Folded` says to the original one with its
modes, and calls no other functions than that. -/
structure FoldsInto {τ σ : Type} [HasNodes τ] (t t' : τ) (r : Option σ) (Folded : σ → Prop) : Prop where
  ruled : ∃ s, r = some s ∧ Folded s
  calls : ∀ C, CallsOnly C t → CallsOnly C t'

namespace FoldsInto

variable {τ υ ω σ σ' ρ : Type} [HasNodes τ] [HasNodes υ] [HasNodes ω] {t t' : τ} {u u' : υ} {v v' : ω}
  {r : Option σ} {r' : Option σ'} {P : σ → Prop} {Q : σ' → Prop} {W : ρ → Prop}

/-- A part without nodes. -/
theorem leaf {s : σ} (hs : P s) (hnodes : nodes t' = nodes t) : FoldsInto t t' (some s) P :=
  ⟨⟨s, rfl, hs⟩, fun _ h => (everywhere_congr hnodes).mpr h⟩

theorem congr {r₁ : Option σ} (h : FoldsInto t t' r P) (hr : r₁ = r) : FoldsInto t t' r₁ P := hr ▸ h

/-- A part around a folded one. -/
theorem map {make : σ → ρ} (h : FoldsInto t t' r P) (hnodes : nodes u = nodes t)
    (hnodes' : nodes u' = nodes t') (hmake : ∀ s, P s → W (make s)) :
    FoldsInto u u' (r >>= fun s => pure (make s)) W := by
  obtain ⟨⟨s, rfl, hs⟩, hcalls⟩ := h
  exact ⟨⟨make s, rfl, hmake s hs⟩, fun C hu =>
    (everywhere_congr hnodes').mpr (hcalls C ((everywhere_congr hnodes).mp hu))⟩

/-- A part around two folded ones. -/
theorem map₂ {make : σ → σ' → ρ} (h : FoldsInto t t' r P) (k : FoldsInto u u' r' Q)
    (hnodes : nodes v = nodes (t, u)) (hnodes' : nodes v' = nodes (t', u'))
    (hmake : ∀ s s', P s → Q s' → W (make s s')) :
    FoldsInto v v' (r >>= fun s => r' >>= fun s' => pure (make s s')) W := by
  obtain ⟨⟨s, rfl, hs⟩, hcalls⟩ := h
  obtain ⟨⟨s', rfl, hs'⟩, hcalls'⟩ := k
  refine ⟨⟨make s s', rfl, hmake s s' hs hs'⟩, fun C hv => (everywhere_congr hnodes').mpr ?_⟩
  obtain ⟨ht, hu⟩ := everywhere_pair.mp ((everywhere_congr hnodes).mp hv)
  exact everywhere_pair.mpr ⟨hcalls C ht, hcalls' C hu⟩

/-- A part around three folded ones. -/
theorem map₃ {χ σ'' : Type} [HasNodes χ] {z z' : χ} {q : Option σ''} {Z : σ'' → Prop} {ψ : Type}
    [HasNodes ψ] {y y' : ψ} {make : σ → σ' → σ'' → ρ} (h : FoldsInto t t' r P) (k : FoldsInto u u' r' Q)
    (l : FoldsInto z z' q Z) (hnodes : nodes y = nodes (t, u, z)) (hnodes' : nodes y' = nodes (t', u', z'))
    (hmake : ∀ s s' s'', P s → Q s' → Z s'' → W (make s s' s'')) :
    FoldsInto y y' (r >>= fun s => r' >>= fun s' => q >>= fun s'' => pure (make s s' s'')) W := by
  have hkl {s : σ} (hs : P s) : FoldsInto (u, z) (u', z')
      (r' >>= fun s' => q >>= fun s'' => pure (make s s' s'')) W :=
    k.map₂ l rfl rfl fun s' s'' => hmake s s' s'' hs
  obtain ⟨⟨s, rfl, hs⟩, hcalls⟩ := h
  refine ⟨(hkl hs).ruled, fun C hy => ?_⟩
  obtain ⟨ht, huz⟩ := everywhere_pair.mp ((everywhere_congr hnodes).mp hy)
  exact (everywhere_congr hnodes').mpr (everywhere_pair.mpr ⟨hcalls C ht, (hkl hs).calls C huz⟩)

end FoldsInto

/-- Parts in the same place have the same mode. -/
theorem Expression.Folds.slot {e e' : Expression} (h : e.Folds Eq e') : e.slot = e'.slot := by
  cases h with
  | keep _ hs _ => exact hs
  | fold _ _ _ hs => exact hs

theorem gaps_of_folds {S : ModeSlot → ModeSlot → Prop} {as as' : List (Option Expression)}
    (h : List.Forall₂ (Option.Rel (Expression.Folds S)) as as') :
    ExpressionKind.Passes.gaps as = ExpressionKind.Passes.gaps as' :=
  ExpressionKind.Passes.gaps_of_forall₂ h

/-- The first clauses of pipelines in the same place start the same stream. -/
theorem pipelineMode_folds {cs cs' : List Clause} (h : List.Forall₂ (Clause.Folds Eq) cs cs') :
    pipelineMode cs' = pipelineMode cs := by
  cases h with
  | nil => rfl
  | cons hc _ =>
    obtain ⟨position, hs, hk⟩ := hc
    cases hk with
    | forEach _ _ _ he => exact congrArg (fun slot : ModeSlot => slot.getD.byItems) he.slot.symm
    | _ => rfl

/-- The table gives expressions in the same place the same mode. -/
theorem ExpressionKind.Folds.rule {calls : CallModes} {vars : VariableModes} {k k' : ExpressionKind}
    (h : k.Folds Eq k') : k'.rule calls vars = k.rule calls vars := by
  cases h with
  | sequence h =>
    have hall {es es' : List Expression} (h : List.Forall₂ (Expression.Folds Eq) es es') :
        es'.all (·.slot.getD.isParallel) = es.all (·.slot.getD.isParallel) := by
      induction h with
      | nil => rfl
      | cons he _ ih => rw [List.all_cons, List.all_cons, ih, he.slot]
    rw [ExpressionKind.rule, ExpressionKind.rule, ← sequenceMode_eq, ← sequenceMode_eq, hall h,
      isEmpty_forall₂ h]
  | objectLookup ho _ => simp only [ExpressionKind.rule, ho.slot]
  | arrayLookup ha _ => simp only [ExpressionKind.rule, ha.slot]
  | arrayUnbox h => simp only [ExpressionKind.rule, h.slot]
  | filter hs _ => simp only [ExpressionKind.rule, hs.slot]
  | functionCall name h =>
    rw [ExpressionKind.rule, ExpressionKind.rule, any_isNone_of_gaps (gaps_of_folds h),
      length_of_gaps (gaps_of_folds h)]
  | flwor hc _ => exact pipelineMode_folds hc
  | _ => rfl

theorem ClauseKind.Folds.streamMode {k k' : ClauseKind} (h : k.Folds Eq k') :
    k'.streamMode = k.streamMode := by
  cases h with
  | forEach _ _ _ he => exact congrArg (fun slot : ModeSlot => slot.getD.byItems) he.slot.symm
  | _ => rfl

theorem variableNames_folds {S : ModeSlot → ModeSlot → Prop} {ks ks' : List (GroupKey Expression)}
    (h : List.Forall₂ (GroupKey.Folds S) ks ks') :
    ks'.map (·.variableName) = ks.map (·.variableName) := by
  induction h with
  | nil => rfl
  | cons hk _ ih =>
    cases hk
    exact congrArg (_ :: ·) ih

theorem ClauseKind.Folds.scopeAfter {k k' : ClauseKind} (h : k.Folds Eq k') (stream : Mode)
    (scope : PipelineScope) : k'.scopeAfter stream scope = k.scopeAfter stream scope := by
  cases h with
  | letBe name he => simp only [ClauseKind.scopeAfter, ClauseKind.introduces, he.slot]
  | groupBy hk => simp only [ClauseKind.scopeAfter, ClauseKind.introduces, variableNames_folds hk]
  | _ => rfl

section
variable {calls : CallModes}

/-- An expression around folded parts. -/
theorem FoldsInto.expression {vars : VariableModes} {k k₁ k' : ExpressionKind} {slot : ModeSlot}
    (position : SourcePosition)
    (h : FoldsInto k k' (k'.ruled calls vars) (k₁.Folds Eq)) (hcall : k'.call? = k.call?) :
    FoldsInto (Expression.mk k position slot) (.mk k' position .empty)
      ((Expression.mk k' position .empty).ruled calls vars)
      ((Expression.mk k₁ position ⟨some (k₁.rule calls vars)⟩).Folds Eq) := by
  obtain ⟨⟨s, hs, hfolds⟩, hcalls⟩ := h
  refine ⟨⟨_, by rw [Expression.ruled, hs]; rfl, .keep position (by rw [hfolds.rule]) hfolds⟩, fun C hk => ?_⟩
  obtain ⟨⟨-, hown⟩, hk⟩ := everywhere_expression.mp hk
  exact everywhere_expression.mpr ⟨⟨rfl, fun key hkey => hown key (hcall.symm.trans hkey)⟩, hcalls C hk⟩

theorem gaps_ruled : ∀ {given given' : List (Option Expression)} {vars : VariableModes},
    argumentsRuled calls vars given = some given' →
    ExpressionKind.Passes.gaps given' = ExpressionKind.Passes.gaps given
  | [], _, _, h => by cases h; rfl
  | none :: rest, _, _, h => by
    rw [argumentsRuled] at h
    obtain ⟨rest', hrest, h⟩ := Option.bind_eq_some_iff.mp h
    cases h
    exact congrArg (_ :: ·) (gaps_ruled hrest)
  | some e :: rest, _, _, h => by
    rw [argumentsRuled] at h
    obtain ⟨e', -, h⟩ := Option.bind_eq_some_iff.mp h
    obtain ⟨rest', hrest, h⟩ := Option.bind_eq_some_iff.mp h
    cases h
    exact congrArg (_ :: ·) (gaps_ruled hrest)

mutual
/-- **Folding changes no mode by the rules**: a sub-expression on the host gives way to a literal, which
is on the host, too. -/
theorem Expression.folds_ruled : ∀ (e : Expression) {vars : VariableModes} {a e' : Expression},
    e.ruled calls vars = some a → a.Folds Unread e' →
    FoldsInto e e' (e'.ruled calls vars) (a.Folds Eq)
  | .mk kind position slot, vars, a, e', ha, h => by
    rw [Expression.ruled] at ha
    obtain ⟨k, hk, ha⟩ := Option.bind_eq_some_iff.mp ha
    cases ha
    cases h with
    | keep _ hs h =>
      obtain rfl := hs
      obtain ⟨hkind, hcall⟩ := ExpressionKind.folds_ruled kind hk h
      exact .expression position hkind hcall
    | fold value place host hs =>
      obtain rfl := hs
      refine ⟨⟨.mk (.literal value) place ⟨some .host⟩, rfl, .fold value place host host⟩, fun C _ => ?_⟩
      exact everywhere_expression.mpr ⟨⟨rfl, nofun⟩, nofun⟩
termination_by structural e => e

theorem ExpressionKind.folds_ruled : ∀ (kind : ExpressionKind) {vars : VariableModes}
    {k k' : ExpressionKind}, kind.ruled calls vars = some k → k.Folds Unread k' →
    FoldsInto kind k' (k'.ruled calls vars) (k.Folds Eq) ∧ k'.call? = kind.call?
  | .literal value, vars, k, k', hk, h => by
    cases hk
    cases h
    exact ⟨.leaf (.literal value) rfl, rfl⟩
  | .contextItem, vars, k, k', hk, h => by
    cases hk
    cases h
    exact ⟨.leaf .contextItem rfl, rfl⟩
  | .array none, vars, k, k', hk, h => by
    cases hk
    cases h with
    | array ha =>
      cases ha
      exact ⟨.leaf (ExpressionKind.Folds.array .none) rfl, rfl⟩
  | .varRef name, vars, k, k', hk, h => by
    have hr := hk
    rw [ExpressionKind.ruled] at hk
    split at hk
    · cases hk
    · cases hk
      cases h
      exact ⟨.congr (.leaf (.varRef name) rfl) hr, rfl⟩
  | .functionRef name arity, vars, k, k', hk, h => by
    have hr := hk
    rw [ExpressionKind.ruled] at hk
    split at hk
    · cases hk
      cases h
      exact ⟨.congr (.leaf (.functionRef name arity) rfl) hr, rfl⟩
    · cases hk
  | .sequence members, vars, k, k', hk, h => by
    rw [ExpressionKind.ruled] at hk
    obtain ⟨a, ha, hk⟩ := Option.bind_eq_some_iff.mp hk
    cases hk
    cases h with
    | sequence ha' => exact ⟨.map (members_folds_ruled members ha ha') rfl rfl fun _ => .sequence, rfl⟩
  | .arithmetic op left right, vars, k, k', hk, h => by
    rw [ExpressionKind.ruled] at hk
    obtain ⟨a, ha, hk⟩ := Option.bind_eq_some_iff.mp hk
    obtain ⟨b, hb, hk⟩ := Option.bind_eq_some_iff.mp hk
    cases hk
    cases h with
    | arithmetic _ ha' hb' =>
      exact ⟨.map₂ (Expression.folds_ruled left ha ha') (Expression.folds_ruled right hb hb') rfl rfl
        fun _ _ => .arithmetic op, rfl⟩
  | .comparison op left right, vars, k, k', hk, h => by
    rw [ExpressionKind.ruled] at hk
    obtain ⟨a, ha, hk⟩ := Option.bind_eq_some_iff.mp hk
    obtain ⟨b, hb, hk⟩ := Option.bind_eq_some_iff.mp hk
    cases hk
    cases h with
    | comparison _ ha' hb' =>
      exact ⟨.map₂ (Expression.folds_ruled left ha ha') (Expression.folds_ruled right hb hb') rfl rfl
        fun _ _ => .comparison op, rfl⟩
  | .logical op left right, vars, k, k', hk, h => by
    rw [ExpressionKind.ruled] at hk
    obtain ⟨a, ha, hk⟩ := Option.bind_eq_some_iff.mp hk
    obtain ⟨b, hb, hk⟩ := Option.bind_eq_some_iff.mp hk
    cases hk
    cases h with
    | logical _ ha' hb' =>
      exact ⟨.map₂ (Expression.folds_ruled left ha ha') (Expression.folds_ruled right hb hb') rfl rfl
        fun _ _ => .logical op, rfl⟩
  | .range first last, vars, k, k', hk, h => by
    rw [ExpressionKind.ruled] at hk
    obtain ⟨a, ha, hk⟩ := Option.bind_eq_some_iff.mp hk
    obtain ⟨b, hb, hk⟩ := Option.bind_eq_some_iff.mp hk
    cases hk
    cases h with
    | range ha' hb' =>
      exact ⟨.map₂ (Expression.folds_ruled first ha ha') (Expression.folds_ruled last hb hb') rfl rfl
        fun _ _ => .range, rfl⟩
  | .not operand, vars, k, k', hk, h => by
    rw [ExpressionKind.ruled] at hk
    obtain ⟨a, ha, hk⟩ := Option.bind_eq_some_iff.mp hk
    cases hk
    cases h with
    | not ha' => exact ⟨.map (Expression.folds_ruled operand ha ha') rfl rfl fun _ => .not, rfl⟩
  | .conditional condition yes no, vars, k, k', hk, h => by
    rw [ExpressionKind.ruled] at hk
    obtain ⟨c, hc, hk⟩ := Option.bind_eq_some_iff.mp hk
    obtain ⟨y, hy, hk⟩ := Option.bind_eq_some_iff.mp hk
    obtain ⟨n, hn, hk⟩ := Option.bind_eq_some_iff.mp hk
    cases hk
    cases h with
    | conditional hc' hy' hn' =>
      exact ⟨.map₃ (Expression.folds_ruled condition hc hc') (Expression.folds_ruled yes hy hy')
        (Expression.folds_ruled no hn hn') rfl rfl fun _ _ _ => .conditional, rfl⟩
  | .object pairs, vars, k, k', hk, h => by
    rw [ExpressionKind.ruled] at hk
    obtain ⟨a, ha, hk⟩ := Option.bind_eq_some_iff.mp hk
    cases hk
    cases h with
    | object ha' => exact ⟨.map (pairs_folds_ruled pairs ha ha') rfl rfl fun _ => .object, rfl⟩
  | .array (some members), vars, k, k', hk, h => by
    rw [ExpressionKind.ruled] at hk
    obtain ⟨a, ha, hk⟩ := Option.bind_eq_some_iff.mp hk
    cases hk
    cases h with
    | array ha' =>
      obtain ⟨ha'⟩ | _ := ha'
      exact ⟨.map (Expression.folds_ruled members ha ha') rfl rfl
        fun _ hs => ExpressionKind.Folds.array (.some hs), rfl⟩
  | .objectLookup object key, vars, k, k', hk, h => by
    rw [ExpressionKind.ruled] at hk
    obtain ⟨a, ha, hk⟩ := Option.bind_eq_some_iff.mp hk
    obtain ⟨b, hb, hk⟩ := Option.bind_eq_some_iff.mp hk
    cases hk
    cases h with
    | objectLookup ha' hb' =>
      exact ⟨.map₂ (Expression.folds_ruled object ha ha') (Expression.folds_ruled key hb hb') rfl rfl
        fun _ _ => .objectLookup, rfl⟩
  | .arrayLookup array index, vars, k, k', hk, h => by
    rw [ExpressionKind.ruled] at hk
    obtain ⟨a, ha, hk⟩ := Option.bind_eq_some_iff.mp hk
    obtain ⟨b, hb, hk⟩ := Option.bind_eq_some_iff.mp hk
    cases hk
    cases h with
    | arrayLookup ha' hb' =>
      exact ⟨.map₂ (Expression.folds_ruled array ha ha') (Expression.folds_ruled index hb hb') rfl rfl
        fun _ _ => .arrayLookup, rfl⟩
  | .arrayUnbox array, vars, k, k', hk, h => by
    rw [ExpressionKind.ruled] at hk
    obtain ⟨a, ha, hk⟩ := Option.bind_eq_some_iff.mp hk
    cases hk
    cases h with
    | arrayUnbox ha' => exact ⟨.map (Expression.folds_ruled array ha ha') rfl rfl fun _ => .arrayUnbox, rfl⟩
  | .filter sequence predicate, vars, k, k', hk, h => by
    rw [ExpressionKind.ruled] at hk
    obtain ⟨a, ha, hk⟩ := Option.bind_eq_some_iff.mp hk
    obtain ⟨b, hb, hk⟩ := Option.bind_eq_some_iff.mp hk
    cases hk
    cases h with
    | filter ha' hb' =>
      exact ⟨.map₂ (Expression.folds_ruled sequence ha ha') (Expression.folds_ruled predicate hb hb') rfl rfl
        fun _ _ => .filter, rfl⟩
  | .functionCall name given, vars, k, k', hk, h => by
    rw [ExpressionKind.ruled] at hk
    obtain ⟨as, has, hk⟩ := Option.bind_eq_some_iff.mp hk
    split at hk
    · rename_i hknows
      cases hk
      cases h with
      | @functionCall _ as' _ h =>
        obtain ⟨⟨bs, hbs, hfolds⟩, hcalls⟩ := arguments_folds_ruled given has h
        have hgaps := (gaps_of_folds h).symm.trans (gaps_ruled has)
        refine ⟨⟨⟨.functionCall name bs, ?_, .functionCall name hfolds⟩, hcalls⟩, ?_⟩
        · rw [ExpressionKind.ruled, hbs]
          exact if_pos (length_of_gaps (gaps_of_folds hfolds) ▸ hknows)
        · rw [ExpressionKind.call?, ExpressionKind.call?, any_isNone_of_gaps hgaps, length_of_gaps hgaps]
    · cases hk
  | .dynamicCall function given, vars, k, k', hk, h => by
    rw [ExpressionKind.ruled] at hk
    obtain ⟨f, hf, hk⟩ := Option.bind_eq_some_iff.mp hk
    obtain ⟨as, has, hk⟩ := Option.bind_eq_some_iff.mp hk
    cases hk
    cases h with
    | dynamicCall hf' has' =>
      exact ⟨.map₂ (Expression.folds_ruled function hf hf') (arguments_folds_ruled given has has') rfl rfl
        fun _ _ => .dynamicCall, rfl⟩
  | .inlineFunction parameters returnType body, vars, k, k', hk, h => by
    rw [ExpressionKind.ruled] at hk
    obtain ⟨a, ha, hk⟩ := Option.bind_eq_some_iff.mp hk
    cases hk
    cases h with
    | inlineFunction _ _ ha' =>
      exact ⟨.map (Expression.folds_ruled body ha ha') rfl rfl
        fun _ => .inlineFunction parameters returnType, rfl⟩
  | .flwor clauses result, vars, k, k', hk, h => by
    rw [ExpressionKind.ruled] at hk
    obtain ⟨⟨cs, scope⟩, hcs, hk⟩ := Option.bind_eq_some_iff.mp hk
    obtain ⟨r, hr, hk⟩ := Option.bind_eq_some_iff.mp hk
    cases hk
    cases h with
    | flwor hcs' hr' =>
      obtain ⟨⟨s, hs, hfolds, rfl⟩, hcalls⟩ := clauses_folds_ruled clauses hcs hcs'
      obtain ⟨⟨r', hr'', hrfolds⟩, hrcalls⟩ := Expression.folds_ruled result hr hr'
      refine ⟨⟨⟨.flwor s.1 r', ?_, .flwor hfolds hrfolds⟩, fun C hC => ?_⟩, rfl⟩
      · rw [ExpressionKind.ruled, hs]
        simp only [Option.bind_eq_bind, Option.bind_some, hr'']
        rfl
      · obtain ⟨hC, hC'⟩ := everywhere_pair.mp hC
        exact everywhere_pair.mpr ⟨hcalls C hC, hrcalls C hC'⟩
termination_by structural kind => kind

theorem members_folds_ruled : ∀ (members : List Expression) {vars : VariableModes}
    {es es' : List Expression}, membersRuled calls vars members = some es →
    List.Forall₂ (Expression.Folds Unread) es es' →
    FoldsInto members es' (membersRuled calls vars es') (List.Forall₂ (Expression.Folds Eq) es)
  | [], vars, es, es', hes, h => by
    cases hes
    cases h
    exact .leaf .nil rfl
  | e :: rest, vars, es, es', hes, h => by
    rw [membersRuled] at hes
    obtain ⟨a, ha, hes⟩ := Option.bind_eq_some_iff.mp hes
    obtain ⟨as, has, hes⟩ := Option.bind_eq_some_iff.mp hes
    cases hes
    obtain _ | ⟨he, h⟩ := h
    exact .map₂ (Expression.folds_ruled e ha he) (members_folds_ruled rest has h) (nodes_cons _ _)
      (nodes_cons _ _) fun _ _ => .cons
termination_by structural members => members

theorem pairs_folds_ruled : ∀ (pairs : List (Expression × Expression)) {vars : VariableModes}
    {ps ps' : List (Expression × Expression)}, pairsRuled calls vars pairs = some ps →
    List.Forall₂ (Both (Expression.Folds Unread)) ps ps' →
    FoldsInto pairs ps' (pairsRuled calls vars ps') (List.Forall₂ (Both (Expression.Folds Eq)) ps)
  | [], vars, ps, ps', hps, h => by
    cases hps
    cases h
    exact .leaf .nil rfl
  | (key, value) :: rest, vars, ps, ps', hps, h => by
    rw [pairsRuled] at hps
    obtain ⟨a, ha, hps⟩ := Option.bind_eq_some_iff.mp hps
    obtain ⟨b, hb, hps⟩ := Option.bind_eq_some_iff.mp hps
    obtain ⟨as, has, hps⟩ := Option.bind_eq_some_iff.mp hps
    cases hps
    obtain _ | ⟨⟨hk, hv⟩, h⟩ := h
    exact .map₃ (Expression.folds_ruled key ha hk) (Expression.folds_ruled value hb hv)
      (pairs_folds_ruled rest has h) (nodes_pair_cons _ _ _) (nodes_pair_cons _ _ _)
      fun _ _ _ hk hv => .cons (.mk hk hv)
termination_by structural pairs => pairs

theorem arguments_folds_ruled : ∀ (given : List (Option Expression)) {vars : VariableModes}
    {as as' : List (Option Expression)}, argumentsRuled calls vars given = some as →
    List.Forall₂ (Option.Rel (Expression.Folds Unread)) as as' →
    FoldsInto given as' (argumentsRuled calls vars as')
      (List.Forall₂ (Option.Rel (Expression.Folds Eq)) as)
  | [], vars, as, as', has, h => by
    cases has
    cases h
    exact .leaf .nil rfl
  | none :: rest, vars, as, as', has, h => by
    rw [argumentsRuled] at has
    obtain ⟨bs, hbs, has⟩ := Option.bind_eq_some_iff.mp has
    cases has
    obtain _ | ⟨⟨⟩, h⟩ := h
    exact .map (arguments_folds_ruled rest hbs h) rfl rfl fun _ => .cons .none
  | some e :: rest, vars, as, as', has, h => by
    rw [argumentsRuled] at has
    obtain ⟨a, ha, has⟩ := Option.bind_eq_some_iff.mp has
    obtain ⟨bs, hbs, has⟩ := Option.bind_eq_some_iff.mp has
    cases has
    obtain _ | ⟨⟨⟩, h⟩ := h
    rename_i he
    exact .map₂ (Expression.folds_ruled e ha he) (arguments_folds_ruled rest hbs h) rfl rfl
      fun _ _ hs => .cons (.some hs)
termination_by structural given => given

theorem clauses_folds_ruled : ∀ (clauses : List Clause) {stream : Option Mode} {scope after : PipelineScope}
    {cs cs' : List Clause}, clausesRuled calls stream scope clauses = some (cs, after) →
    List.Forall₂ (Clause.Folds Unread) cs cs' →
    FoldsInto clauses cs' (clausesRuled calls stream scope cs')
      fun s => List.Forall₂ (Clause.Folds Eq) cs s.1 ∧ s.2 = after
  | [], stream, scope, after, cs, cs', hcs, h => by
    cases hcs
    cases h
    exact .leaf ⟨.nil, rfl⟩ rfl
  | .mk kind position slot :: rest, stream, scope, after, cs, cs', hcs, h => by
    rw [clausesRuled] at hcs
    obtain ⟨k, hk, hcs⟩ := Option.bind_eq_some_iff.mp hcs
    obtain ⟨⟨ks, last⟩, hks, hcs⟩ := Option.bind_eq_some_iff.mp hcs
    cases hcs
    obtain _ | ⟨⟨_, rfl, hkind⟩, h⟩ := h
    obtain ⟨⟨k', hk', hfolds⟩, hcalls⟩ := ClauseKind.folds_ruled kind hk hkind
    obtain ⟨⟨⟨ks', last'⟩, hks', hrest, hlast⟩, hcalls'⟩ := clauses_folds_ruled rest hks h
    obtain rfl : last' = after := hlast
    refine ⟨⟨(.mk k' position ⟨some (stream.getD k.streamMode)⟩ :: ks', last'), ?_,
      .cons (.keep position rfl hfolds) hrest, rfl⟩, fun C hC => ?_⟩
    · rw [clausesRuled, hk']
      simp only [Option.bind_eq_bind, Option.bind_some, hfolds.streamMode, hfolds.scopeAfter, hks']
      rfl
    · obtain ⟨hclause, hC⟩ := everywhere_cons.mp hC
      exact everywhere_cons.mpr ⟨everywhere_clause.mpr
        ⟨⟨rfl, nofun⟩, hcalls C (everywhere_clause.mp hclause).2⟩, hcalls' C hC⟩
termination_by structural clauses => clauses

theorem ClauseKind.folds_ruled : ∀ (kind : ClauseKind) {vars : VariableModes} {k k' : ClauseKind},
    kind.ruled calls vars = some k → k.Folds Unread k' →
    FoldsInto kind k' (k'.ruled calls vars) (k.Folds Eq)
  | .forEach name place allowingEmpty source, vars, k, k', hk, h => by
    rw [ClauseKind.ruled] at hk
    obtain ⟨a, ha, hk⟩ := Option.bind_eq_some_iff.mp hk
    cases hk
    cases h with
    | forEach _ _ _ ha' =>
      exact .map (Expression.folds_ruled source ha ha') rfl rfl fun _ => .forEach name place allowingEmpty
  | .letBe name value, vars, k, k', hk, h => by
    rw [ClauseKind.ruled] at hk
    obtain ⟨a, ha, hk⟩ := Option.bind_eq_some_iff.mp hk
    cases hk
    cases h with
    | letBe _ ha' => exact .map (Expression.folds_ruled value ha ha') rfl rfl fun _ => .letBe name
  | .keepWhere condition, vars, k, k', hk, h => by
    rw [ClauseKind.ruled] at hk
    obtain ⟨a, ha, hk⟩ := Option.bind_eq_some_iff.mp hk
    cases hk
    cases h with
    | keepWhere ha' => exact .map (Expression.folds_ruled condition ha ha') rfl rfl fun _ => .keepWhere
  | .orderBy keys, vars, k, k', hk, h => by
    rw [ClauseKind.ruled] at hk
    obtain ⟨a, ha, hk⟩ := Option.bind_eq_some_iff.mp hk
    cases hk
    cases h with
    | orderBy ha' => exact .map (orderKeys_folds_ruled keys ha ha') rfl rfl fun _ => .orderBy
  | .groupBy keys, vars, k, k', hk, h => by
    rw [ClauseKind.ruled] at hk
    obtain ⟨a, ha, hk⟩ := Option.bind_eq_some_iff.mp hk
    cases hk
    cases h with
    | groupBy ha' => exact .map (groupKeys_folds_ruled keys ha ha') rfl rfl fun _ => .groupBy
  | .count name, vars, k, k', hk, h => by
    cases hk
    cases h
    exact .leaf (.count name) rfl
termination_by structural kind => kind

theorem orderKeys_folds_ruled : ∀ (keys : List (OrderKey Expression)) {vars : VariableModes}
    {ks ks' : List (OrderKey Expression)}, orderKeysRuled calls vars keys = some ks →
    List.Forall₂ (OrderKey.Folds Unread) ks ks' →
    FoldsInto keys ks' (orderKeysRuled calls vars ks') (List.Forall₂ (OrderKey.Folds Eq) ks)
  | [], vars, ks, ks', hks, h => by
    cases hks
    cases h
    exact .leaf .nil rfl
  | ⟨e, descending, empty⟩ :: rest, vars, ks, ks', hks, h => by
    rw [orderKeysRuled] at hks
    obtain ⟨a, ha, hks⟩ := Option.bind_eq_some_iff.mp hks
    obtain ⟨bs, hbs, hks⟩ := Option.bind_eq_some_iff.mp hks
    cases hks
    obtain _ | ⟨⟨_, _, he⟩, h⟩ := h
    exact .map₂ (Expression.folds_ruled e ha he) (orderKeys_folds_ruled rest hbs h) rfl rfl
      fun _ _ hs => .cons (.mk descending empty hs)
termination_by structural keys => keys

theorem groupKeys_folds_ruled : ∀ (keys : List (GroupKey Expression)) {vars : VariableModes}
    {ks ks' : List (GroupKey Expression)}, groupKeysRuled calls vars keys = some ks →
    List.Forall₂ (GroupKey.Folds Unread) ks ks' →
    FoldsInto keys ks' (groupKeysRuled calls vars ks') (List.Forall₂ (GroupKey.Folds Eq) ks)
  | [], vars, ks, ks', hks, h => by
    cases hks
    cases h
    exact .leaf .nil rfl
  | ⟨name, none⟩ :: rest, vars, ks, ks', hks, h => by
    rw [groupKeysRuled] at hks
    split at hks
    · cases hks
    · rename_i hname
      obtain ⟨bs, hbs, hks⟩ := Option.bind_eq_some_iff.mp hks
      cases hks
      obtain _ | ⟨⟨_, ⟨⟩⟩, h⟩ := h
      refine .congr (.map (groupKeys_folds_ruled rest hbs h) rfl rfl
        fun _ => .cons (.mk name .none)) ?_
      rw [groupKeysRuled, if_neg hname]
  | ⟨name, some e⟩ :: rest, vars, ks, ks', hks, h => by
    rw [groupKeysRuled] at hks
    obtain ⟨a, ha, hks⟩ := Option.bind_eq_some_iff.mp hks
    obtain ⟨bs, hbs, hks⟩ := Option.bind_eq_some_iff.mp hks
    cases hks
    obtain _ | ⟨⟨_, ⟨⟩⟩, h⟩ := h
    rename_i he
    exact .map₂ (Expression.folds_ruled e ha he) (groupKeys_folds_ruled rest hbs h) rfl rfl
      fun _ _ hs => .cons (.mk name (.some hs))
termination_by structural keys => keys
end

end
end HybridQuery
