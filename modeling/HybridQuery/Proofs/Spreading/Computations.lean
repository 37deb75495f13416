import HybridQuery.Proofs.Spreading.Builtins

/-!
# Computations and calls of spread plans

* `PlanEvaluator.Carries.compute`: what yields all its items at once.
* `PlanEvaluator.Carries.namedCall`, `PlanEvaluator.Carries.computedCall`: calls after their checks.
* `PlanEvaluator.Carries.callRows`: the distributed form of a call, whose function has a distributed
  body.
-/

namespace HybridQuery

variable {calls : FunctionKey → Prop} {env' env : Environment}

/-! ## Operators -/

theorem Item.isAtomic_of_integerOf {n : Int} {fault : Fault} {i : Item}
    (h : Item.integerOf n fault = .ok i) : i.isAtomic = true := by
  unfold Item.integerOf at h
  split at h <;> cases h
  rfl

theorem Item.isAtomic_of_decimalArithmetic {op : ArithmeticOp} {a b : Decimal} {i : Item}
    (h : Item.decimalArithmetic op a b = .ok i) : i.isAtomic = true := by
  cases op <;> simp only [decimalArithmetic] at h
  case integerDivide =>
    split at h
    · cases h
    · exact isAtomic_of_integerOf h
  case divide | modulo => split at h <;> cases h; rfl
  all_goals
    cases h
    rfl

theorem Item.isAtomic_of_integerArithmetic {op : ArithmeticOp} {a b : Int} {i : Item}
    (h : Item.integerArithmetic op a b = .ok i) : i.isAtomic = true := by
  cases op <;> simp only [integerArithmetic] at h
  case divide => exact isAtomic_of_decimalArithmetic h
  case integerDivide =>
    split at h
    · cases h
    · exact isAtomic_of_integerOf h
  case modulo =>
    split at h
    · cases h
    · split at h
      · cases h
      · exact isAtomic_of_integerOf h
  all_goals exact isAtomic_of_integerOf h

theorem Item.isAtomic_of_doubleArithmetic {op : ArithmeticOp} {a b : Float} {i : Item}
    (h : Item.doubleArithmetic op a b = .ok i) : i.isAtomic = true := by
  cases op <;> simp only [doubleArithmetic] at h
  case integerDivide =>
    split at h
    · split at h
      · exact isAtomic_of_integerOf h
      · cases h
    · cases h
  all_goals
    cases h
    rfl

/-- Arithmetic gives numbers. -/
theorem Item.isAtomic_of_arithmetic {op : ArithmeticOp} {l r i : Item}
    (h : Item.arithmetic op l r = .ok i) : i.isAtomic = true := by
  unfold Item.arithmetic at h
  split at h
  · cases h
  · split at h
    · cases h
    · split at h
      · exact isAtomic_of_integerArithmetic h
      · split at h
        · exact isAtomic_of_decimalArithmetic h
        · exact isAtomic_of_doubleArithmetic h

/-! ## Functions -/

section
variable {S : Plan → Plan → Prop} (he : Environment.Spread S calls env' env)

theorem Registry.find?_like {fs' fs : Registry} (hf : List.Forall₂ (FunctionOf.Like S) fs' fs)
    (key : FunctionKey) :
    Option.Rel (FunctionOf.Like S) (fs'.find? key) (fs.find? key) :=
  find?_forall₂ hf fun _ _ h => by rw [h.alike.keyOf?_eq]

include he

/-- A named function; if `calls` says so, its body is distributed. -/
theorem PlanEvaluator.namedFunction_carries {name : String} {arity : Nat}
    (hname : Builtin.find? name arity ≠ some .structuredJsonFile) :
    Engine.Carries env' env
      (fun f' f => f'.Like S f ∧ (calls (name, arity) → f.body.mode = .rows))
      (namedFunction name arity) (namedFunction name arity) := by
  unfold namedFunction
  cases hb : Builtin.find? name arity with
  | some b =>
    refine .pure ⟨.mk (he.builtins (fun hs => hname (hs ▸ hb)) arity) .nil, fun hcalls => ?_⟩
    cases hb.symm.trans (he.bodies _ hcalls).1
  | none =>
    refine (Engine.Carries.environment (R := fun e' e => e'.functions = env'.functions ∧
      e.functions = env.functions) ⟨rfl, rfl⟩).bind ?_
    rintro e' e ⟨he', he''⟩
    rw [he', he'']
    refine .ofResult ?_
    have hfind := Registry.find?_like he.functions (name, arity)
    unfold Registry.get
    cases hf : env.functions.find? (name, arity) with
    | none =>
      rw [hf] at hfind
      generalize env'.functions.find? (name, arity) = o' at hfind
      cases hfind
      exact .error _
    | some f =>
      rw [hf] at hfind
      generalize env'.functions.find? (name, arity) = o' at hfind
      cases hfind with
      | some h => exact .ok ⟨h, fun hcalls => (he.bodies _ hcalls).2 f hf⟩

end

theorem PlanEvaluator.calledFunction_carries {S : Plan → Plan → Prop} {s' s : Sequence}
    (hs : Sequence.Like S s' s) :
    HybridQuery.Carries (FunctionOf.Like S) (calledFunction s') (calledFunction s) := by
  have hseveral (i j : Item) (rest : Sequence) :
      ∃ e, calledFunction (i :: j :: rest) = .error e := by
    cases i <;> exact ⟨_, rfl⟩
  have hatomic (i : Item) (hi : i.isAtomic = true) : ∃ e, calledFunction [i] = .error e := by
    cases i <;> first | exact ⟨_, rfl⟩ | cases hi
  cases hs with
  | nil => exact .error _
  | cons hi hr =>
    cases hr with
    | cons hj hr =>
      obtain ⟨e, he⟩ := hseveral _ _ _
      rw [he]
      exact .error e
    | nil =>
      cases hi with
      | atomic hi =>
        obtain ⟨e, he⟩ := hatomic _ hi
        rw [he]
        exact .error e
      | object | array => exact .error _
      | function handle name parameters signature hbody hclosure =>
        exact .ok (.function handle name parameters signature hbody hclosure)

theorem PlanEvaluator.contextItem_carries {S : Plan → Plan → Prop} {c' c : Context}
    (hc : Context.Like S c' c) :
    HybridQuery.Carries (Sequence.Like S) (contextItem c') (contextItem c) := by
  unfold contextItem
  have hl := hc.lookup contextItemName
  generalize c'.lookup contextItemName = o', c.lookup contextItemName = o at hl
  cases hl with
  | none => exact .error _
  | some hv =>
    cases hv with
    | items h => exact .ok h
    | lowered | rows => exact .error _

namespace PlanEvaluator.Carries

/-! ## Computations -/

section
variable {ev' ev : PlanEvaluator} (h : PlanEvaluator.Carries (Plan.Spread calls) env' env ev' ev)
  (he : Environment.Spread (Plan.Spread calls) calls env' env) {c' c : Context}
  (hc : Context.Like (Plan.Spread calls) c' c)
include h he hc

theorem compute {k' k : Computation} (hk : k'.Spread calls k) :
    Engine.Carries env' env (Sequence.Like (Plan.Spread calls)) (ev'.compute c' k')
      (ev.compute c k) := by
  have hone {i' i : Item} (hi : Item.Like (Plan.Spread calls) i' i) :
      Engine.Carries env' env (Sequence.Like (Plan.Spread calls)) (pure [i']) (pure [i]) :=
    .pure (.cons hi .nil)
  cases hk with
  | literal value => exact hone (Item.like_ofJson value)
  | contextItem => exact .ofResult (contextItem_carries hc)
  | arithmetic op hl hr => exact h.binary hc hl hr fun _ _ _ => Item.isAtomic_of_arithmetic
  | comparison op hl hr =>
    refine h.binary hc hl hr fun l r i hi => ?_
    cases hcmp : l.compare r with
    | error e => rw [hcmp] at hi; cases hi
    | ok o => rw [hcmp] at hi; cases hi; rfl
  | logical op hl hr =>
    refine (h.connective hc op hl hr).bind ?_
    rintro b _ rfl
    exact hone (.atomic rfl)
  | not hp =>
    refine (h.evaluate hp hc).bind fun s' s hs => ?_
    rw [Sequence.Like.truth_eq hs]
    refine (Engine.Carries.ofResult .of_eq).bind ?_
    rintro b _ rfl
    exact hone (.atomic rfl)
  | object hp => exact (h.objectPairs hc hp .nil).bind fun _ _ hd => hone (.object hd)
  | array hm =>
    cases hm with
    | none => exact hone (.array .nil)
    | some hp => exact (h.evaluate hp hc).bind fun _ _ hs => hone (.array hs)
  | builtin hb ha => exact h.builtinItems _ ha hc he hb
  | inlineFunction parameters signature hp => exact hone (FunctionOf.Like.mk hp hc.snapshot)
  | functionRef hname =>
    exact (namedFunction_carries he hname).bind fun _ _ hf => hone hf.1

end

section
variable {S : Plan → Plan → Prop} {ev' ev : PlanEvaluator}
  (h : PlanEvaluator.Carries S env' env ev' ev) {c' c : Context} (hc : Context.Like S c' c)
include h hc

theorem rangeBound {p' p : Plan} (hp : S p' p) :
    Engine.Carries env' env (· = ·) (ev'.rangeBound p' c') (ev.rangeBound p c) := by
  refine (h.optionalItem hc hp _).bind fun o' o ho => ?_
  cases ho with
  | none => exact .pure rfl
  | some hi =>
    cases hi with
    | atomic =>
      split
      · next heq => cases heq
      · next heq => cases heq; exact .pure rfl
      · exact .of_never .fail
    | object | array | function => exact .of_never .fail

/-! ## Calls -/

variable (he : Environment.Spread S calls env' env)
include he

theorem argumentValues {as' as : List (Option Plan)} (ha : List.Forall₂ (Option.Rel S) as' as) :
    Engine.Carries env' env (List.Forall₂ (Option.Rel (ValueLike S))) (ev'.argumentValues c' as')
      (ev.argumentValues c as) := by
  induction ha with
  | nil => exact .pure .nil
  | cons hp _ ih =>
    cases hp with
    | none => exact ih.bind fun _ _ hvs => .pure (.cons .none hvs)
    | some hp =>
      exact (h.value hc he hp).bind fun _ _ hv => ih.bind fun _ _ hvs => .pure (.cons (.some hv) hvs)

omit h hc in
theorem invocation {f' f : FunctionItem} (hf : f'.Like S f) {vs' vs : List (Option (Value Item))}
    (hv : List.Forall₂ (Option.Rel (ValueLike S)) vs' vs) :
    Engine.Carries env' env (Invocation.Like S) (invocation f' vs') (invocation f vs) := by
  refine (Engine.Carries.environment (R := fun e' e => e'.catalogue = e.catalogue)
    he.catalogue).bind fun e' e hcat => ?_
  rw [hcat]
  exact .ofResult (Invocation.of_like hf _ hv)

/-- A call of a named function that passed its checks. -/
theorem namedCall {name : String} {as' as : List (Option Plan)}
    (hname : Builtin.find? name as.length ≠ some .structuredJsonFile)
    (ha : List.Forall₂ (Option.Rel S) as' as) :
    Engine.Carries env' env
      (fun x' x => x'.1.Like S x.1 ∧ Invocation.Like S x'.2 x.2 ∧
        (calls (name, as.length) → x.1.body.mode = .rows))
      (ev'.namedCall name as' c') (ev.namedCall name as c) := by
  unfold PlanEvaluator.namedCall
  rw [ha.length_eq]
  refine (namedFunction_carries he hname).bind fun f' f hf => ?_
  refine (h.argumentValues hc he ha).bind fun vs' vs hv => ?_
  exact (invocation he hf.1 hv).bind fun _ _ hi => .pure ⟨hf.1, hi, hf.2⟩

/-- A call of a computed function that passed its checks. -/
theorem computedCall {p' p : Plan} {as' as : List (Option Plan)} (hp : S p' p)
    (ha : List.Forall₂ (Option.Rel S) as' as) (position' position : SourcePosition) :
    Engine.Carries env' env (fun x' x => x'.1.Like S x.1 ∧ Invocation.Like S x'.2 x.2)
      (ev'.computedCall p' as' position' c') (ev.computedCall p as position c) := by
  refine (h.evaluate hp hc).bind fun s' s hs => ?_
  refine (Engine.Carries.ofResult ((calledFunction_carries hs).mapError _ _)).bind fun f' f hf => ?_
  refine (h.argumentValues hc he ha).bind fun vs' vs hv => ?_
  exact ((invocation he hf hv).locate _ _).bind fun _ _ hi => .pure ⟨hf, hi⟩

/-! ### Distributed forms -/

/-- A call of a named function whose arguments are all given. -/
theorem fullCall {name : String} {as' as : List (Option Plan)}
    (hname : Builtin.find? name as.length ≠ some .structuredJsonFile)
    (ha : List.Forall₂ (Option.Rel S) as' as) :
    Engine.Carries env' env
      (fun x' x => x'.1.Like S x.1 ∧ Context.Like S x'.2 x.2 ∧
        (calls (name, as.length) → x.1.body.mode = .rows))
      (ev'.fullCall name as' c') (ev.fullCall name as c) := by
  refine (h.namedCall hc he hname ha).bind ?_
  rintro ⟨f', i'⟩ ⟨f, i⟩ ⟨hf, hi, hm⟩
  cases hi with
  | partially => exact .of_never .fail
  | fully hc => exact .pure ⟨hf, hc, hm⟩

omit he in
/-- The distributed form of a body. -/
theorem bodyRows {f' f : FunctionItem} (hf : f'.Like S f) (hm : f.body.mode = .rows) (mode' : Mode) :
    Engine.Carries env' env (Collection.Like (Item.Like S)) (ev'.bodyRows mode' f' c')
      (ev.bodyRows .rows f c) := by
  unfold PlanEvaluator.bodyRows
  rw [show (Mode.rows.isColumnar && f.body.mode.isColumnar) = false from rfl]
  simp only [Bool.false_eq_true, ↓reduceIte]
  split
  · exact .of_never ((h.frame hf.alike.body hc).bind _)
  · exact h.rows hf.alike.body hm hc

omit h hc in
theorem promoteRows (type : SequenceType) {d' d : Collection Item}
    (hd : d'.Like (Item.Like S) d) :
    Engine.Carries env' env (Collection.Like (Item.Like S)) (promoteRows type d')
      (promoteRows type d) := by
  unfold PlanEvaluator.promoteRows
  split
  · exact .pure hd
  · refine (Engine.Carries.environment (R := fun e' e => e'.catalogue = e.catalogue)
      he.catalogue).bind fun e' e hcat => .ofResult (HybridQuery.Carries.mapError ?_ _ _)
    rw [hcat, d'.count_eq, d.count_eq, hd.length_eq]
    refine (HybridQuery.Carries.of_eq).bind fun _ _ _ => ?_
    exact .mapM_collection hd fun _ _ hi => Catalogue.promote_like _ hi _

theorem callRows {name : String} {as' as : List (Option Plan)}
    (hname : Builtin.find? name as.length ≠ some .structuredJsonFile)
    (ha : List.Forall₂ (Option.Rel S) as' as) (hcalls : calls (name, as.length)) (mode' : Mode) :
    Engine.Carries env' env (Collection.Like (Item.Like S)) (ev'.callRows name as' mode' c')
      (ev.callRows name as .rows c) := by
  refine (h.fullCall hc he hname ha).bind ?_
  rintro ⟨f', d'⟩ ⟨f, d⟩ ⟨hf, hd, hm⟩
  refine (h.bodyRows hd hf (hm hcalls) mode').bind fun _ _ hrows => ?_
  rw [show f'.signature = f.signature from hf.alike.signature_eq]
  exact promoteRows he _ hrows

end
end PlanEvaluator.Carries
end HybridQuery
