import HybridQuery.Proofs.Calling.Inputs

/-!
# What calls of functions settle on

A call evaluates its arguments to values, each in the representation that fits its mode, checks them, and
then evaluates the body of the function or leaves a function of the parameters that are left.

* `Plan.Binds`: the value that an argument is evaluated to; its items are those of the plan.
* `settles_argumentValues_iff`, `settles_computedCall_iff`, `settles_namedCall_iff`: calls and their checks.
* `Invocation.SettlesOn`: what is left to do after the checks. `settles_call_iff`: a call settles on what
  that settles on.
-/

namespace HybridQuery

variable {env : Environment} {context : Context}

/-! ## Values of arguments -/

/-- A plan is evaluated to a value by every evaluator that is deep enough. -/
abbrev Plan.Binds (env : Environment) (context : Context) (p : Plan) (v : Value Item) : Prop :=
  Settles env (fun depth => (Evaluator.ofDepth depth).plans.value p context) (.ok v)

namespace Context

theorem meant_value (context : Context) (p : Plan) :
    Meant env (fun depth => (Evaluator.ofDepth depth).plans.value p context)
      fun depth => (Meaning.ofDepth depth).plans.value p context :=
  .of_marked (fun _ => context.scopes) fun hK h => h.plans.value (hK.symm ▸ context.known_scopes) p

theorem meant_argumentValues (context : Context) (arguments : List (Option Plan)) :
    Meant env (fun depth => (Evaluator.ofDepth depth).plans.argumentValues context arguments)
      fun depth => (Meaning.ofDepth depth).plans.argumentValues context arguments :=
  .of_marked (fun _ => context.scopes) fun hK h =>
    h.plans.argumentValues (hK.symm ▸ context.known_scopes) arguments

theorem meant_namedCall (context : Context) (name : String) (arguments : List (Option Plan)) :
    Meant env (fun depth => (Evaluator.ofDepth depth).plans.namedCall name arguments context)
      fun depth => (Meaning.ofDepth depth).plans.namedCall name arguments context :=
  .of_marked (fun _ => context.scopes) fun hK h =>
    h.plans.namedCall (hK.symm ▸ context.known_scopes) name arguments

theorem meant_computedCall (context : Context) (function : Plan) (arguments : List (Option Plan))
    (position : SourcePosition) :
    Meant env (fun depth => (Evaluator.ofDepth depth).plans.computedCall function arguments position context)
      fun depth => (Meaning.ofDepth depth).plans.computedCall function arguments position context :=
  .of_marked (fun _ => context.scopes) fun hK h =>
    h.plans.computedCall (hK.symm ▸ context.known_scopes) function arguments position

end Context

namespace Plan

variable {p : Plan}

end Plan

theorem settles_argumentValues_iff {arguments : List (Option Plan)} {values : List (Option (Value Item))} :
    Settles env (fun depth => (Evaluator.ofDepth depth).plans.argumentValues context arguments) (.ok values) ↔
      List.Forall₂ (Option.Rel (Plan.Binds env context)) arguments values := by
  induction arguments generalizing values with
  | nil => exact settles_pure_iff.trans (by rw [List.forall₂_nil_left_iff, eq_comm])
  | cons argument arguments ih =>
    have hrest : Meant env _ _ := context.meant_argumentValues arguments
    rw [List.forall₂_cons_left_iff]
    cases argument with
    | none =>
      refine (hrest.settles_map_iff (f := (none :: ·))).trans ?_
      simp only [ih]
      constructor
      · rintro ⟨rest, h, rfl⟩
        exact ⟨none, rest, .none, h, rfl⟩
      · rintro ⟨_, rest, ⟨⟩, h, rfl⟩
        exact ⟨rest, h, rfl⟩
    | some p =>
      have hbind : Settles env (fun depth => (Evaluator.ofDepth depth).plans.value p context >>= fun v =>
          (some v :: ·) <$> (Evaluator.ofDepth depth).plans.argumentValues context arguments)
          (.ok values) ↔ _ :=
        (context.meant_value p).settles_bind_iff fun v => hrest.map (some v :: ·)
      refine hbind.trans ?_
      simp only [hrest.settles_map_iff, ih]
      constructor
      · rintro ⟨v, hv, rest, h, rfl⟩
        exact ⟨some v, rest, .some hv, h, rfl⟩
      · rintro ⟨_, rest, ⟨hv⟩, h, rfl⟩
        exact ⟨_, hv, rest, h, rfl⟩

/-! ## Checks -/

theorem Engine.ComesTo.invocation (f : FunctionItem) (given : List (Option (Value Item))) :
    (PlanEvaluator.invocation f given).ComesTo env (Invocation.of f env.catalogue given).toOption :=
  environment.bind (r := fun e => (Invocation.of f e.catalogue given).toOption) fun _ _ => .ofResult _

theorem settles_invocation_iff {f : FunctionItem} {given : List (Option (Value Item))} {i : Invocation} :
    Settles env (fun _ => PlanEvaluator.invocation f given) (.ok i) ↔
      Invocation.of f env.catalogue given = .ok i := by
  have h : Engine.ComesTo env _ _ := .invocation f given
  rw [(Meant.of_steady h.steady).settles_ok_iff, Filter.eventually_const, h.value]
  cases Invocation.of f env.catalogue given <;> simp [Except.toOption]

section
variable {check : List (Option (Value Item)) → Engine Invocation} (hcheck : ∀ given, (check given).Steady env)
  (f : FunctionItem) (arguments : List (Option Plan))
include hcheck

/-- A call of a function from its arguments on. -/
theorem meant_checkedCall (context : Context) :
    Meant env (fun depth => do
      let given ← (Evaluator.ofDepth depth).plans.argumentValues context arguments
      return (f, ← check given)) fun depth => do
      let given ← (Meaning.ofDepth depth).plans.argumentValues context arguments
      return (f, ← check given) :=
  (context.meant_argumentValues arguments).bind fun given => (Meant.of_steady (hcheck given)).map (f, ·)

theorem settles_checkedCall_iff {g : FunctionItem} {i : Invocation} :
    Settles env (fun depth => do
      let given ← (Evaluator.ofDepth depth).plans.argumentValues context arguments
      return (f, ← check given)) (.ok (g, i)) ↔
      f = g ∧ ∃ given, List.Forall₂ (Option.Rel (Plan.Binds env context)) arguments given ∧
        Settles env (fun _ => check given) (.ok i) := by
  have hchecked (given : List (Option (Value Item))) := Meant.of_steady (hcheck given)
  refine ((context.meant_argumentValues arguments).settles_bind_iff fun given =>
    (hchecked given).map (f, ·)).trans ?_
  simp only [(hchecked _).settles_map_iff, settles_argumentValues_iff, Prod.mk.injEq]
  constructor
  · rintro ⟨given, hgiven, j, hj, rfl, rfl⟩
    exact ⟨rfl, given, hgiven, hj⟩
  · rintro ⟨rfl, given, hgiven, hi⟩
    exact ⟨given, hgiven, i, hi, rfl, rfl⟩

end

section
variable {arguments : List (Option Plan)} {f : FunctionItem} {i : Invocation}

/-- A named function is called once it is found and its arguments have values that it accepts. -/
theorem settles_namedCall_iff {name : String} :
    Settles env (fun depth => (Evaluator.ofDepth depth).plans.namedCall name arguments context)
      (.ok (f, i)) ↔
      Settles env (fun _ => PlanEvaluator.namedFunction name arguments.length) (.ok f) ∧
        ∃ given, List.Forall₂ (Option.Rel (Plan.Binds env context)) arguments given ∧
          Invocation.of f env.catalogue given = .ok i := by
  have hfunction : Meant env (fun _ => PlanEvaluator.namedFunction name arguments.length) _ :=
    .of_steady (PlanEvaluator.Follows.namedFunction (F := ⊥) (L := True) name arguments.length).1
  have hcheck (g : FunctionItem) (given : List (Option (Value Item))) :
      (PlanEvaluator.invocation g given).Steady env := (Engine.ComesTo.invocation g given).steady
  refine (hfunction.settles_bind_iff fun g => meant_checkedCall (hcheck g) g arguments context).trans ?_
  simp only [settles_checkedCall_iff (hcheck _), settles_invocation_iff]
  constructor
  · rintro ⟨g, hg, rfl, given⟩
    exact ⟨hg, given⟩
  · rintro ⟨hf, given⟩
    exact ⟨f, hf, rfl, given⟩

/-- What is called is a single function. -/
theorem calledFunction_eq_ok_iff {items : Sequence} {position : SourcePosition} :
    EngineResult.locate (PlanEvaluator.calledFunction items) position = .ok f ↔ items = [.function f] := by
  constructor
  · intro h
    unfold PlanEvaluator.calledFunction at h
    split at h
    · cases h
      rfl
    · cases h
  · rintro rfl
    rfl

/-- A computed function is called once it is computed and its arguments have values that it accepts. -/
theorem settles_computedCall_iff {function : Plan} {position : SourcePosition} :
    Settles env (fun depth =>
      (Evaluator.ofDepth depth).plans.computedCall function arguments position context) (.ok (f, i)) ↔
      function.SettlesOn env context [.function f] ∧
        ∃ given, List.Forall₂ (Option.Rel (Plan.Binds env context)) arguments given ∧
          Invocation.of f env.catalogue given = .ok i := by
  have hinvocation (g : FunctionItem) (given : List (Option (Value Item))) :
      (PlanEvaluator.invocation g given).Steady env := (Engine.ComesTo.invocation g given).steady
  have hcheck (g : FunctionItem) (given : List (Option (Value Item))) :
      Engine.Steady env (Run.locate (PlanEvaluator.invocation g given) position) :=
    (Tends.locate (F := ⊥) (L := True) (.of_steady (hinvocation g given)) position).1
  have hrest (g : FunctionItem) := meant_checkedCall (hcheck g) g arguments context
  have hcalled (items : Sequence) : Meant env
      (fun _ => Run.ofResult (EngineResult.locate (PlanEvaluator.calledFunction items) position)) _ :=
    .of_steady (Engine.ComesTo.ofResult _).steady
  refine ((context.known_scopes.meant_evaluate function).settles_bind_iff fun items =>
    (hcalled items).bind hrest).trans ?_
  simp only [Meant.settles_ofResult_bind_iff hrest, calledFunction_eq_ok_iff,
    settles_checkedCall_iff (hcheck _), (Meant.of_steady (hinvocation _ _)).settles_locate_iff,
    settles_invocation_iff]
  constructor
  · rintro ⟨_, hitems, g, rfl, rfl, given⟩
    exact ⟨hitems, given⟩
  · rintro ⟨hfunction, given⟩
    exact ⟨_, hfunction, f, rfl, rfl, given⟩

end

/-! ## After the checks -/

/-- What a call settles on after its checks, if the function restricts its result by no type: on the
function of the parameters that are left, or on what the body settles on. -/
def Invocation.SettlesOn (env : Environment) (f : FunctionItem) : Invocation → Sequence → Prop
  | .partially left, items => items = [.function left]
  | .fully inner, items => f.body.SettlesOn env inner items

section
variable {x : ℕ → Engine (FunctionItem × Invocation)} (call : Meaning → Engine (FunctionItem × Invocation))
  {operation : Operation} {position : SourcePosition} {items : Sequence}
  (hx : Meant env x fun depth => call (.ofDepth depth))
  (hcall : ∀ M : Meaning, M.operationItems env context position operation =
    .attempt ((call M).result env) (M.callItems env))
include hx hcall

omit hx in
theorem value?_call (depth : Nat) :
    ((Meaning.ofDepth (depth + 1)).plans.evaluate (.mk .host position operation) context).value? env =
      ((call (.ofDepth depth)).value? env).bind fun c => ((Meaning.ofDepth depth).callItems env c).all? := by
  rw [Meaning.value?_evaluate]
  refine (Trace.all?_locate _ position).trans ?_
  exact (congrArg Trace.all? (hcall _)).trans (Trace.all?_attempt _ _)

/-- A call settles on what is left to do after its checks. -/
theorem settles_call_iff {f : FunctionItem} {i : Invocation} (h : Settles env x (.ok (f, i)))
    (hu : f.signature.returnType.isUnconstrained = true) :
    (Plan.mk .host position operation).SettlesOn env context items ↔ i.SettlesOn env f items := by
  have hvalue : ∀ᶠ depth in Filter.atTop, ((Meaning.ofDepth (depth + 1)).plans.evaluate
      (.mk .host position operation) context).value? env =
        ((Meaning.ofDepth depth).callItems env (f, i)).all? := by
    filter_upwards [hx.settles_ok_iff.mp h] with depth hd
    rw [value?_call call hcall, hd, Option.bind_some]
  rw [Plan.SettlesOn, (context.known_scopes.meant_evaluate _).settles_ok_iff, ← eventually_add_iff 1,
    Filter.eventually_congr (hvalue.mono fun depth hd => by rw [hd])]
  cases i with
  | partially left =>
    simp only [Meaning.callItems, Trace.all?_one, Filter.eventually_const, Option.some_inj]
    exact eq_comm
  | fully inner =>
    simp only [Meaning.callItems, Meaning.checked_unconstrained hu, Trace.all?_ahead,
      ← Meaning.value?_evaluate]
    exact (inner.known_scopes.meant_evaluate f.body).settles_ok_iff.symm

end

end HybridQuery
