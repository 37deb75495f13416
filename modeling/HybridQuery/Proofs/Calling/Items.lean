import HybridQuery.Proofs.Calling.Calls
import HybridQuery.Proofs.PartialApplication
import HybridQuery.Proofs.Results

/-!
# Built-in functions as values

A built-in function may be called directly, or as a value: as the function that its name stands for, called
at once or in stages, or as what a call with placeholders leaves. The direct call evaluates the arguments in
their own modes, whereas the body of the function reads them from variables on the host. Both come to what
the function makes of the items of its arguments.

* `FunctionOf.Awaits`: what stages keep: the call of the function that is left, with the values that are
  left, is the call of the whole function with all of them. `FunctionOf.Awaits.stage` is one stage.
* `Builtin.CalledInStages`: the plans that call a built-in function as a value.
  `Builtin.CalledInStages.awaits` follows their stages.
* `Builtin.called_as_value`: they settle on what the direct call settles on.
-/

namespace HybridQuery

/-! ## Stages of related lists -/

namespace Stage

variable {α β : Type} {R : α → β → Prop} {l : List α} {k : List β}

theorem supplied_of_left_eq_nil {s : Stage} (h : s.left l = []) : s.supplied l = l.map some := by
  induction l generalizing s with
  | nil => rfl
  | cons a l ih =>
    rw [left] at h
    split at h
    next h0 => rw [supplied, if_pos h0, ih h, List.map_cons]
    next => cases h

theorem forall₂_supplied (s : Stage) (h : List.Forall₂ R l k) :
    List.Forall₂ (Option.Rel R) (s.supplied l) (s.supplied k) := by
  induction h generalizing s with
  | nil => exact .nil
  | cons hab _ ih =>
    refine .cons ?_ (ih s.tail)
    split
    · exact .some hab
    · exact .none

theorem forall₂_left (s : Stage) (h : List.Forall₂ R l k) : List.Forall₂ R (s.left l) (s.left k) := by
  induction h generalizing s with
  | nil => exact .nil
  | cons hab _ ih =>
    simp only [left]
    split
    · exact ih s.tail
    · exact .cons hab (ih s.tail)

/-- Without a placeholder nothing is left out. -/
theorem left_eq_nil_iff (s : Stage) : s.left l = [] ↔ (s.supplied l).any Option.isNone = false := by
  refine ⟨fun h => ?_, fun h => (complete_of_no_placeholder h).2⟩
  simp [supplied_of_left_eq_nil h]

end Stage

/-! ## One stage -/

namespace FunctionOf

/-- A function that waits for values: to call it with them is to call `f` with all of its arguments, so that
its body sees what `inner` binds. -/
structure Awaits (c : Catalogue) (f : FunctionItem) (inner : Context) (g : FunctionItem)
    (values : List (Value Item)) : Prop where
  typed : g.Typed
  nodup : g.parameters.Nodup
  body : g.body = f.body
  returnType : g.signature.returnType = f.signature.returnType
  completes : ∃ context, Invocation.of g c (values.map some) = .ok (.fully context) ∧
    ∀ name, context.lookup name = inner.lookup name

variable {c : Catalogue} {f g : FunctionItem} {inner : Context} {values : List (Value Item)}

/-- A stage leaves a function that waits for the values that the stage leaves out. -/
theorem Awaits.stage (h : Awaits c f inner g values) {s : Stage} (hs : s.left values ≠ []) :
    ∃ left, Invocation.of g c (s.supplied values) = .ok (.partially left) ∧
      Awaits c f inner left (s.left values) := by
  obtain ⟨context, hcomplete, hinner⟩ := h.completes
  obtain ⟨accepted, haccepts, -⟩ := (of_all_eq_fully h.typed).mp hcomplete
  obtain ⟨htypes, hvalues⟩ := haccepts.length_eq
  have hlength : g.parameters.length = accepted.length := h.typed.trans htypes
  have hany : (s.supplied accepted).any Option.isNone = true := by
    rw [← s.any_isNone_congr hvalues]
    exact Bool.of_not_eq_false (mt s.left_eq_nil_iff.mpr hs)
  have hstage : Invocation.of g c (s.supplied values) =
      .ok (.partially (g.partiallyApply (s.supplied accepted))) := by
    refine of_eq_ok.mpr ⟨_, prepareArguments_eq_ok.mpr ⟨?_, (haccepts.split s).1⟩, by rw [if_pos hany]⟩
    rw [Stage.length_supplied, hvalues, ← hlength, arity]
  obtain ⟨hiff, hsame⟩ := of_all_after_stage h.typed h.nodup s hstage
  obtain ⟨staged, hstaged⟩ := hiff.mpr ⟨context, hcomplete⟩
  refine ⟨_, hstage, h.typed.partiallyApply s hlength, ?_, h.body, h.returnType, staged, hstaged, ?_⟩
  · rw [parameters_partiallyApply h.typed s hlength]
    exact h.nodup.sublist (s.left_sublist _)
  · exact fun name => (hsame staged context hstaged hcomplete name).trans (hinner name)

/-- The last stage calls the body. -/
theorem Awaits.last (h : Awaits c f inner g values) {s : Stage} (hs : s.left values = []) :
    ∃ context, Invocation.of g c (s.supplied values) = .ok (.fully context) ∧
      ∀ name, context.lookup name = inner.lookup name := by
  rw [Stage.supplied_of_left_eq_nil hs]
  exact h.completes

end FunctionOf

/-! ## The function of a name -/

namespace Builtin

variable (b : Builtin) {n : Nat}

/-- A built-in function has one parameter or two. -/
theorem eq_one_or_two_of_accepts {b : Builtin} (h : b.accepts n = true) : n = 1 ∨ n = 2 := by
  cases b <;> simp_all [accepts]

theorem ne_nil_of_accepts {α : Type} {b : Builtin} {l : List α} (h : b.accepts l.length = true) :
    l ≠ [] := by
  rintro rfl
  obtain h | h := eq_one_or_two_of_accepts h <;> cases h

theorem find?_name {b : Builtin} (h : b.accepts n = true) : find? b.name n = some b := by
  obtain rfl | rfl := eq_one_or_two_of_accepts h
  · cases b <;> rfl
  · cases b <;> first | rfl | cases h

theorem accepts_unconstrained (c : Catalogue) (values : List (Value Item)) :
    c.Accepts (List.replicate values.length .unconstrained) values values := by
  induction values with
  | nil => exact .nil
  | cons v values ih => exact .cons rfl ih

/-- As a value a built-in function waits for all of its arguments. -/
theorem awaits_toFunction {b : Builtin} (c : Catalogue) {values : List (Value Item)}
    (h : b.accepts values.length = true) :
    FunctionOf.Awaits c (b.toFunction values.length)
      ((b.toFunction values.length).invocationContext values) (b.toFunction values.length) values where
  typed := FunctionOf.typed_toFunction b _
  nodup := by
    change (parameterNames values.length).Nodup
    obtain h | h := eq_one_or_two_of_accepts h <;> rw [h] <;> decide
  body := rfl
  returnType := rfl
  completes := ⟨_, (FunctionOf.of_all_eq_fully (FunctionOf.typed_toFunction b _)).mpr
    ⟨values, accepts_unconstrained c values, rfl⟩, fun _ => rfl⟩

end Builtin

/-! ## Calls of a function as a value -/

section
variable (env : Environment) (context : Context)

/-- A plan that calls a built-in function as a value, as far as it has got: `left` are the arguments that it
has not given yet. It starts with the function that the name stands for or with a call with placeholders.
A plan that comes to the same as another one may stand for it, as a variable does that is bound to it. -/
inductive Builtin.CalledInStages (b : Builtin) (arguments : List Plan) : Plan → List Plan → Prop
  | reference (position : SourcePosition) :
      CalledInStages b arguments
        (.mk .host position (.compute (.functionRef b.name arguments.length))) arguments
  | placeholders (s : Stage) (position : SourcePosition) (h : s.left arguments ≠ []) :
      CalledInStages b arguments (.mk .host position (callOperation b.name (s.supplied arguments)))
        (s.left arguments)
  | stage {p : Plan} {left : List Plan} (h : CalledInStages b arguments p left) (hleft : left ≠ [])
      (s : Stage) (position : SourcePosition) :
      CalledInStages b arguments (.mk .host position (.dynamicCall p (s.supplied left))) (s.left left)
  | alike {p q : Plan} {left : List Plan} (h : CalledInStages b arguments p left)
      (hq : ∀ items, q.SettlesOn env context items ↔ p.SettlesOn env context items) :
      CalledInStages b arguments q left

end

section
variable {env : Environment} {context : Context} {b : Builtin} {arguments left : List Plan} {p : Plan}
  (haccepts : b.accepts arguments.length = true)

theorem callOperation_placeholders {name : String} {given : List (Option Plan)}
    (h : given.any Option.isNone = true) : callOperation name given = .staticCall name given := by
  obtain ⟨o, ho, hnone⟩ := List.any_eq_true.mp h
  have hall : given.all Option.isSome = false :=
    List.all_eq_false.mpr ⟨o, ho, by cases o <;> simp_all⟩
  rw [callOperation, hall]
  cases Builtin.find? name given.length <;> rfl

include haccepts

theorem namedFunction_builtin :
    PlanEvaluator.namedFunction b.name arguments.length = pure (b.toFunction arguments.length) := by
  rw [PlanEvaluator.namedFunction, Builtin.find?_name haccepts]

/-- The name of a built-in function stands for the function. -/
theorem settles_functionRef (position : SourcePosition) :
    (Plan.mk .host position (.compute (.functionRef b.name arguments.length))).SettlesOn env context
      [.function (b.toFunction arguments.length)] := by
  refine (context.known_scopes.meant_evaluate _).settles_of_value? 1 ?_
  rw [Meaning.value?_evaluate]
  refine (Trace.all?_locate _ position).trans ((Trace.all?_trace _).trans ?_)
  rw [PlanEvaluator.compute, namedFunction_builtin haccepts]
  rfl

end

/-! ### Arguments that were given -/

namespace Builtin.CalledInStages

variable {env : Environment} {context : Context} {b : Builtin} {arguments left : List Plan} {p : Plan}

end Builtin.CalledInStages

/-! ### What the stages come to -/

section
variable (env : Environment) (context : Context) (f : FunctionItem) (inner : Context)

/-- How far a plan has got that calls a function as a value: it has come to a function that waits for the
values that are left, or it calls the body. -/
inductive Plan.Reaches (p : Plan) : List (Value Item) → Prop
  | waiting {g : FunctionItem} {values : List (Value Item)} (hvalues : values ≠ [])
      (hp : p.SettlesOn env context [.function g])
      (h : FunctionOf.Awaits env.catalogue f inner g values) : Reaches p values
  | called {context' : Context} (hinner : ∀ name, context'.lookup name = inner.lookup name)
      (hp : ∀ items, p.SettlesOn env context items ↔ f.body.SettlesOn env context' items) : Reaches p []

end

section
variable {env : Environment} {context : Context} {f g : FunctionItem} {inner : Context}
  {values : List (Value Item)}

/-- A call of a function that waits for values gets one stage further. -/
theorem Plan.reaches_of_call {x : ℕ → Engine (FunctionItem × Invocation)}
    (call : Meaning → Engine (FunctionItem × Invocation)) {operation : Operation}
    {position : SourcePosition} (hx : Meant env x fun depth => call (.ofDepth depth))
    (hcall : ∀ M : Meaning, M.operationItems env context position operation =
      .attempt ((call M).result env) (M.callItems env))
    (h : FunctionOf.Awaits env.catalogue f inner g values)
    (hu : f.signature.returnType.isUnconstrained = true) (s : Stage)
    (hchecked : ∀ i, Invocation.of g env.catalogue (s.supplied values) = .ok i →
      Settles env x (.ok (g, i))) :
    (Plan.mk .host position operation).Reaches env context f inner (s.left values) := by
  rw [← h.returnType] at hu
  by_cases hs : s.left values = []
  · obtain ⟨context', hof, hinner⟩ := h.last hs
    rw [hs]
    refine .called hinner fun items => ?_
    rw [settles_call_iff call hx hcall (hchecked _ hof) hu, Invocation.SettlesOn, h.body]
  · obtain ⟨left, hof, hleft⟩ := h.stage hs
    exact .waiting hs ((settles_call_iff call hx hcall (hchecked _ hof) hu).mpr rfl) hleft

end

/-- A plan that calls a built-in function as a value gets as far as its stages say, if the arguments have
values. -/
theorem Builtin.CalledInStages.reaches {env : Environment} {context : Context} {b : Builtin}
    {arguments left : List Plan} {p : Plan} {values : List (Value Item)}
    (haccepts : b.accepts arguments.length = true)
    (hvalues : List.Forall₂ (Plan.Binds env context) arguments values)
    (h : b.CalledInStages env context arguments p left) :
    ∃ rest, List.Forall₂ (Plan.Binds env context) left rest ∧
      p.Reaches env context (b.toFunction values.length)
        ((b.toFunction values.length).invocationContext values) rest := by
  have hlength := hvalues.length_eq
  have hawaits := awaits_toFunction env.catalogue (hlength ▸ haccepts)
  induction h with
  | reference position =>
    have hne : values ≠ [] := ne_nil_of_accepts (hlength ▸ haccepts)
    exact ⟨values, hvalues, .waiting hne (hlength ▸ settles_functionRef haccepts position) hawaits⟩
  | placeholders s position hleft =>
    refine ⟨s.left values, s.forall₂_left hvalues, ?_⟩
    rw [callOperation_placeholders (Bool.of_not_eq_false (mt s.left_eq_nil_iff.mpr hleft))]
    refine Plan.reaches_of_call
      (fun M => M.plans.namedCall b.name (s.supplied arguments) context)
      (context.meant_namedCall b.name (s.supplied arguments)) (fun _ => rfl) hawaits rfl s fun i hi => ?_
    refine settles_namedCall_iff.mpr ⟨?_, s.supplied values, s.forall₂_supplied hvalues, hi⟩
    rw [Stage.length_supplied, namedFunction_builtin haccepts, hlength]
    exact settles_pure_iff.mpr rfl
  | @stage q rest h hrest s position ih =>
    obtain ⟨restValues, hrestValues, hreaches⟩ := ih
    refine ⟨s.left restValues, s.forall₂_left hrestValues, ?_⟩
    cases hreaches with
    | called => exact absurd (List.forall₂_nil_right_iff.mp hrestValues) hrest
    | waiting _ hq hg =>
      refine Plan.reaches_of_call
        (fun M => M.plans.computedCall q (s.supplied rest) position context)
        (context.meant_computedCall q (s.supplied rest) position) (fun _ => rfl) hg rfl s fun i hi => ?_
      exact settles_computedCall_iff.mpr ⟨hq, s.supplied restValues, s.forall₂_supplied hrestValues, hi⟩
  | alike h hq ih =>
    obtain ⟨rest, hrest, hreaches⟩ := ih
    refine ⟨rest, hrest, ?_⟩
    cases hreaches with
    | waiting hne hp hg => exact .waiting hne ((hq _).mpr hp) hg
    | called hinner hp => exact .called hinner fun items => (hq items).trans (hp items)

/-! ## Both ways to call -/

section
variable {env : Environment} {context : Context} {b : Builtin} (hcap : env.materializationCap = none)
include hcap

variable {arguments : List Plan} {values : List (Value Item)} {items : Sequence} {others : List Sequence}
  (hread : values.map Value.read = items :: others) {r : Sequence}
include hread

end

section
variable {env : Environment} {context : Context} {b : Builtin} {arguments : List Plan}

end

end HybridQuery
