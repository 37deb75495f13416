import HybridQuery.Evaluation.Driving
import HybridQuery.Proofs.Meaning.Limits

/-!
# What is made of evaluations of plans

Evaluators of plans follow an evaluator if each way to evaluate a plan does (`PlanEvaluator.Follows`).
Then everything that is computed from evaluations of plans follows as well: there is one lemma for each
function of `PlanEvaluator`, and its proof has the shape of the function.
-/

namespace HybridQuery

open Filter

/-- Evaluators of plans that follow an evaluator in all contexts that handles tell apart. -/
structure PlanEvaluator.Follows (marks : Nat → List Bindings) (F : Filter ℕ) (L : Prop)
    (env : Environment) (evs : ℕ → PlanEvaluator) (ev : PlanEvaluator) : Prop where
  evaluate : ∀ p context, context.Known marks →
    Tends F L env (fun j => (evs j).evaluate p context) (ev.evaluate p context)
  rows : ∀ p context, context.Known marks →
    Tends F L env (fun j => (evs j).rows p context) (ev.rows p context)
  planFrame : ∀ p context, context.Known marks →
    Tends F L env (fun j => (evs j).planFrame p context) (ev.planFrame p context)
  firstOnHost : ∀ p context, context.Known marks →
    Tends F L env (fun j => (evs j).firstOnHost p context) (ev.firstOnHost p context)
  emptyOnHost : ∀ p context, context.Known marks →
    Tends F L env (fun j => (evs j).emptyOnHost p context) (ev.emptyOnHost p context)

namespace PlanEvaluator.Follows

variable {marks : Nat → List Bindings} {F : Filter ℕ} {L : Prop} {env : Environment}
  {evs : ℕ → PlanEvaluator} {ev : PlanEvaluator} (h : Follows marks F L env evs ev)
  {context : Context} (hc : context.Known marks)
include h hc

/-! ## Values, operands and truth values -/

theorem value (p : Plan) :
    Tends F L env (fun j => (evs j).value p context) (ev.value p context) := by
  unfold PlanEvaluator.value Engine.valueIn
  cases p.mode with
  | unset | host => exact (h.evaluate p context hc).map _
  | rows => exact (h.rows p context hc).map _
  | columns => exact (h.planFrame p context hc).map _

theorem optionalItem (p : Plan) (what : String) :
    Tends F L env (fun j => (evs j).optionalItem p context what)
      (ev.optionalItem p context what) :=
  (h.evaluate p context hc).bind fun _ => .ofResult _

theorem truth (p : Plan) :
    Tends F L env (fun j => (evs j).truth p context) (ev.truth p context) :=
  (h.evaluate p context hc).bind fun _ => .ofResult _

theorem operand (p : Plan) :
    Tends F L env (fun j => (evs j).operand p context) (ev.operand p context) := by
  refine (h.optionalItem hc p _).bind fun o => ?_
  cases o with
  | none => exact .pure _
  | some i =>
    cases hi : i.isAtomic with
    | true => simpa [hi] using .pure (some i)
    | false => simpa [hi] using (Tends.fail _).locate p.position

theorem binary (left right : Plan) (apply : Item → Item → EngineResult Item) :
    Tends F L env (fun j => (evs j).binary left right context apply)
      (ev.binary left right context apply) := by
  refine (h.operand hc left).bind fun l => (h.operand hc right).bind fun r => ?_
  rcases l with _ | l <;> rcases r with _ | r
  · exact .pure _
  · exact .pure _
  · exact .pure _
  · exact (Tends.ofResult _).bind fun _ => .pure _

theorem connective (op : LogicalOp) (left right : Plan) :
    Tends F L env (fun j => (evs j).connective op left right context)
      (ev.connective op left right context) := by
  refine (h.truth hc left).bind fun b => ?_
  cases op <;> cases b
  · exact .pure _
  · exact h.truth hc right
  · exact h.truth hc right
  · exact .pure _

/-! ## Constructors -/

theorem pairKey (p : Plan) :
    Tends F L env (fun j => (evs j).pairKey p context) (ev.pairKey p context) := by
  refine (h.optionalItem hc p _).bind fun o => ?_
  cases o with
  | none => exact (Tends.raise _).locate _
  | some i =>
    cases hk : i.keyText? with
    | none => simpa [hk] using (Tends.fail _).locate p.position
    | some key => simpa [hk] using .pure key

theorem objectPairs (pairs : List (Plan × Plan)) (done : List (String × Item)) :
    Tends F L env (fun j => (evs j).objectPairs context done pairs)
      (ev.objectPairs context done pairs) := by
  induction pairs generalizing done with
  | nil => exact .pure _
  | cons pair rest ih =>
    obtain ⟨key, value⟩ := pair
    refine (h.pairKey hc key).bind fun k => ?_
    cases hk : done.any (·.1 == k) with
    | true => simpa [hk] using (Tends.fail _).locate value.position
    | false => simpa [hk] using (h.evaluate value context hc).bind fun _ => ih _

omit h hc in
theorem namedFunction (name : String) (arity : Nat) :
    Tends F L env (fun _ => PlanEvaluator.namedFunction name arity)
      (PlanEvaluator.namedFunction name arity) := by
  unfold PlanEvaluator.namedFunction
  cases Builtin.find? name arity with
  | some b => exact .pure _
  | none => exact Tends.environment.bind fun _ => .ofResult _

/-! ## Navigation -/

theorem lookupKey (p : Plan) :
    Tends F L env (fun j => (evs j).lookupKey p context) (ev.lookupKey p context) := by
  refine (h.optionalItem hc p _).bind fun o => ?_
  cases o with
  | none => exact .pure _
  | some i =>
    cases hk : i.keyText? with
    | none => simpa [hk] using Tends.fail _
    | some key => simpa [hk] using .pure (some key)

theorem lookupIndex (p : Plan) :
    Tends F L env (fun j => (evs j).lookupIndex p context) (ev.lookupIndex p context) := by
  refine (h.optionalItem hc p _).bind fun o => ?_
  rcases o with _ | i
  · exact .pure _
  · cases i <;> first | exact .pure _ | exact .raise _

theorem stepOperand (step : NavigationStep) :
    Tends F L env (fun j => (evs j).stepOperand step context) (ev.stepOperand step context) := by
  cases step with
  | objectLookup key => exact (h.lookupKey hc key).map _
  | arrayLookup index => exact (h.lookupIndex hc index).map _
  | arrayUnbox | filter => exact .pure _

omit hc in
theorem keeps (predicate : Plan) (place : Nat) (i : Item) (context : Context) :
    Tends F L env (fun j => (evs j).keeps predicate place i context)
      (ev.keeps predicate place i context) := by
  refine (h.evaluate predicate _ (.of_unmarked rfl)).bind fun items => ?_
  rcases items with _ | ⟨r, _ | ⟨s, rest⟩⟩
  · exact .ofResult _
  · cases hr : r.isNumeric with
    | true => simpa [hr] using .pure _
    | false => simpa [hr] using .ofResult _
  · exact .ofResult _

omit hc in
theorem applyStep (step : NavigationStep) (operand : StepOperand) (place : Nat) (i : Item)
    (context : Context) :
    Tends F L env (fun j => (evs j).applyStep step operand place i context)
      (ev.applyStep step operand place i context) := by
  unfold PlanEvaluator.applyStep
  split
  · exact .pure _
  · exact .pure _
  · exact .pure _
  · exact (h.keeps _ place i context).bind fun _ => .pure _
  · exact .pure _

omit h hc in
theorem stepFrame_answers {ev' : PlanEvaluator} {step : NavigationStep}
    {input input' : Engine (Frame Item)} (hsteady : input.Steady env)
    (hoperand : Answers L env (ev'.stepOperand step context)
      ((ev.stepOperand step context).result env))
    (hinput : Answers L env input' (input.result env)) :
    Answers L env (ev'.stepFrame step input' context)
      ((ev.stepFrame step input context).result env) := by
  have hselect (key : String) : Answers L env (do return (← input').select key : Engine _)
      (Engine.result (do return (← input).select key) env) := by
    rw [Engine.result_bind fun _ _ _ => rfl]
    exact hinput.bind fun frame _ => .inr fun _ => rfl
  unfold PlanEvaluator.stepFrame
  rw [Engine.result_bind fun operand _ => ?_]
  · refine hoperand.bind fun operand _ => ?_
    split
    · exact hselect _
    · exact .inr fun _ => .inl rfl
    · exact .inr fun _ => .inl rfl
  · split
    · exact Tends.steady_bind hsteady fun _ _ => rfl
    · exact fun _ => rfl
    · exact fun _ => rfl

theorem stepFrame_steady {step : NavigationStep} {input : Engine (Frame Item)}
    (hsteady : input.Steady env) : (ev.stepFrame step input context).Steady env := by
  refine Tends.steady_bind (h.stepOperand hc step).1 fun operand => ?_
  split
  · exact Tends.steady_bind hsteady fun _ _ => rfl
  · exact fun _ => rfl
  · exact fun _ => rfl

omit hc in
theorem stepRows (step : NavigationStep) (operand : StepOperand) (rows : Collection Item)
    (context : Context) :
    Tends F L env (fun j => (evs j).stepRows step operand rows context)
      (ev.stepRows step operand rows context) := by
  unfold PlanEvaluator.stepRows
  split
  · exact .flatMapM (fun (i, index) => h.applyStep step operand (index + 1) i context) _
  · exact .flatMapM (fun i => h.applyStep step operand 0 i context) _

/-! ## Calls -/

theorem argumentValues (arguments : List (Option Plan)) :
    Tends F L env (fun j => (evs j).argumentValues context arguments)
      (ev.argumentValues context arguments) := by
  induction arguments with
  | nil => exact .pure _
  | cons argument rest ih =>
    cases argument with
    | none => exact ih.bind fun _ => .pure _
    | some p => exact (h.value hc p).bind fun _ => ih.bind fun _ => .pure _

omit h hc in
theorem invocation (f : FunctionItem) (arguments : List (Option (Value Item))) :
    Tends F L env (fun _ => PlanEvaluator.invocation f arguments)
      (PlanEvaluator.invocation f arguments) := Tends.environment.bind fun _ => .ofResult _

omit h hc in
theorem invocation_unmarked {f : FunctionItem} {arguments : List (Option (Value Item))}
    {inner : Context}
    (hcall : (PlanEvaluator.invocation f arguments).result env = .ok (.fully inner)) :
    inner.handle = none := by
  have hof : Invocation.of f env.catalogue arguments = .ok (.fully inner) := by
    cases hi : Invocation.of f env.catalogue arguments with
    | ok i =>
      have : (PlanEvaluator.invocation f arguments).result env = .ok i := by
        simp [PlanEvaluator.invocation, Engine.result, Run.environment, Run.ofResult, hi, Bind.bind,
          ReaderT.bind, EStateM.bind, pure, ReaderT.pure, EStateM.pure]
      rw [this] at hcall
      cases hcall
      rfl
    | error e =>
      have : (PlanEvaluator.invocation f arguments).result env = .error (.raised e) := by
        simp [PlanEvaluator.invocation, Engine.result, Run.environment, Run.ofResult, hi, Bind.bind,
          ReaderT.bind, EStateM.bind, Run.raise]
      rw [this] at hcall
      cases hcall
  unfold Invocation.of at hof
  cases hp : f.prepareArguments env.catalogue arguments with
  | error e => rw [hp] at hof; cases hof
  | ok values =>
    rw [hp] at hof
    simp only [Bind.bind, Except.bind] at hof
    split at hof
    · cases hof
    · cases hof
      rfl

theorem namedCall (name : String) (arguments : List (Option Plan)) :
    Tends F L env (fun j => (evs j).namedCall name arguments context)
      (ev.namedCall name arguments context) :=
  (namedFunction name _).bind fun f => (h.argumentValues hc arguments).bind fun values =>
    (invocation f values).bind fun _ => .pure _

theorem computedCall (function : Plan) (arguments : List (Option Plan))
    (position : SourcePosition) :
    Tends F L env (fun j => (evs j).computedCall function arguments position context)
      (ev.computedCall function arguments position context) :=
  (h.evaluate function context hc).bind fun _ => (Tends.ofResult _).bind fun f =>
    (h.argumentValues hc arguments).bind fun values =>
      ((invocation f values).locate position).bind fun _ => .pure _

theorem namedCall_unmarked {name : String} {arguments : List (Option Plan)} {f : FunctionItem}
    {inner : Context}
    (hcall : (ev.namedCall name arguments context).result env = .ok (f, .fully inner)) :
    inner.handle = none := by
  have hvalues := fun f values => (invocation f values : Tends F L env _ _).bind
    fun i => Tends.pure (f, i)
  obtain ⟨f', -, hcall⟩ := Engine.result_bind_ok (fun f _ =>
    ((h.argumentValues hc arguments).bind fun values => hvalues f values).1) hcall
  obtain ⟨values, -, hcall⟩ := Engine.result_bind_ok (fun values _ => (hvalues f' values).1) hcall
  obtain ⟨i, hi, hcall⟩ := Engine.result_bind_ok (fun _ _ _ => rfl) hcall
  cases hcall
  exact invocation_unmarked hi

theorem computedCall_unmarked {function : Plan} {arguments : List (Option Plan)}
    {position : SourcePosition} {f : FunctionItem} {inner : Context}
    (hcall : (ev.computedCall function arguments position context).result env =
      .ok (f, .fully inner)) :
    inner.handle = none := by
  have hvalues := fun f values =>
    ((invocation f values : Tends F L env _ _).locate position).bind
      fun i => Tends.pure (f, i)
  have harguments := fun f => (h.argumentValues hc arguments).bind fun values => hvalues f values
  obtain ⟨items, -, hcall⟩ := Engine.result_bind_ok
    (fun items _ => ((Tends.ofResult _).bind harguments).1) hcall
  obtain ⟨f', -, hcall⟩ := Engine.result_bind_ok (fun f _ => (harguments f).1) hcall
  obtain ⟨values, -, hcall⟩ := Engine.result_bind_ok (fun values _ => (hvalues f' values).1) hcall
  obtain ⟨i, hi, hcall⟩ := Engine.result_bind_ok (fun _ _ _ => rfl) hcall
  cases hcall
  rw [Engine.result_locate] at hi
  cases hr : (PlanEvaluator.invocation f values).result env with
  | error e => rw [hr] at hi; cases hi
  | ok i =>
    rw [hr] at hi
    cases hi
    exact invocation_unmarked hr

theorem fullCall (name : String) (arguments : List (Option Plan)) :
    Tends F L env (fun j => (evs j).fullCall name arguments context)
      (ev.fullCall name arguments context) := by
  refine (h.namedCall hc name arguments).bind fun call => ?_
  obtain ⟨f, _ | inner⟩ := call
  · exact .raise _
  · exact .pure _

theorem fullCall_unmarked {name : String} {arguments : List (Option Plan)} {f : FunctionItem}
    {inner : Context} (hcall : (ev.fullCall name arguments context).result env = .ok (f, inner)) :
    inner.handle = none := by
  obtain ⟨⟨f', _ | inner'⟩, hnamed, hcall⟩ := Engine.result_bind_ok
    (fun (_, i) _ => by cases i <;> exact fun _ => rfl) hcall
  · cases hcall
  · cases hcall
    exact h.namedCall_unmarked hc hnamed

theorem bodyRows (mode : Mode) (f : FunctionItem) :
    Tends F L env (fun j => (evs j).bodyRows mode f context) (ev.bodyRows mode f context) := by
  unfold PlanEvaluator.bodyRows
  split
  · exact (h.planFrame f.body context hc).bind fun _ => .pure _
  · exact h.rows f.body context hc

omit h hc in
theorem promoteRows (type : SequenceType) (rows : Collection Item) :
    Tends F L env (fun _ => PlanEvaluator.promoteRows type rows)
      (PlanEvaluator.promoteRows type rows) := by
  unfold PlanEvaluator.promoteRows
  split
  · exact .pure _
  · exact Tends.environment.bind fun _ => .ofResult _

theorem callRows (name : String) (arguments : List (Option Plan)) (mode : Mode) :
    Tends F L env (fun j => (evs j).callRows name arguments mode context)
      (ev.callRows name arguments mode context) := by
  refine (h.fullCall hc name arguments).bind_of fun (f, inner) hcall => ?_
  exact (h.bodyRows (.of_unmarked (h.fullCall_unmarked hc hcall)) mode f).bind
    fun _ => promoteRows _ _

theorem callFrame (name : String) (arguments : List (Option Plan)) :
    Tends F L env (fun j => (evs j).callFrame name arguments context)
      (ev.callFrame name arguments context) :=
  (h.fullCall hc name arguments).bind_of fun (f, inner) hcall =>
    h.planFrame f.body inner (.of_unmarked (h.fullCall_unmarked hc hcall))

/-! ## Clauses on distributed tuples -/

omit h hc in
theorem expandedRows (v : ForVariables) (allowingEmpty : Bool)
    {items : ℕ → Context → Engine Sequence} {item : Context → Engine Sequence}
    {tuples : Collection Tuple}
    (hitems : ∀ t ∈ tuples.records,
      Tends F L env (fun j => items j (t.scope context)) (item (t.scope context))) :
    Tends F L env (fun j => PlanEvaluator.expandedRows v allowingEmpty (items j) context tuples)
      (PlanEvaluator.expandedRows v allowingEmpty item context tuples) :=
  .flatMapM_of_mem fun t ht => (hitems t ht).bind fun _ => .pure _

omit hc in
theorem boundRows (name : String) (value : Plan) (tuples : Collection Tuple) :
    Tends F L env (fun j => (evs j).boundRows name value context tuples)
      (ev.boundRows name value context tuples) :=
  .collectionMapM (fun _ => (h.evaluate value _ (.of_unmarked rfl)).bind fun _ => .pure _) _

omit hc in
theorem keptRows (condition : Plan) (tuples : Collection Tuple) :
    Tends F L env (fun j => (evs j).keptRows condition context tuples)
      (ev.keptRows condition context tuples) :=
  .filterM (fun _ => h.truth (.of_unmarked rfl) condition) _

omit hc in
theorem projectedRows (result : Plan) (tuples : Collection Tuple) :
    Tends F L env (fun j => (evs j).projectedRows result context tuples)
      (ev.projectedRows result context tuples) :=
  .flatMapM (fun _ => h.evaluate result _ (.of_unmarked rfl)) _

/-! ## Ordering and grouping -/

theorem sortComponent (key : OrderKey Plan) :
    Tends F L env (fun j => (evs j).sortComponent key context) (ev.sortComponent key context) := by
  refine (h.optionalItem hc key.expression _).bind fun o => ?_
  cases o with
  | none => exact .pure _
  | some i =>
    cases hi : i.isAtomic with
    | true => simpa [hi] using .pure (some i)
    | false => simpa [hi] using (Tends.fail _).locate key.expression.position

omit hc in
theorem keyedTuple (keys : List (OrderKey Plan)) (tuple : Tuple) :
    Tends F L env (fun j => (evs j).keyedTuple keys context tuple)
      (ev.keyedTuple keys context tuple) :=
  (Tends.listMapM (fun key => h.sortComponent (.of_unmarked rfl) key) keys).bind fun _ => .pure _

omit hc in
theorem sortedRows (keys : List (OrderKey Plan)) (tuples : Collection Tuple) :
    Tends F L env (fun j => (evs j).sortedRows keys context tuples)
      (ev.sortedRows keys context tuples) :=
  (Tends.collectionMapM (fun tuple => h.keyedTuple keys tuple) tuples).bind fun _ =>
    (Tends.ofResult _).bind fun _ => (Tends.count _).bind fun _ => .pure _

omit hc in
theorem groupingItems (key : GroupKey Plan) (position : SourcePosition) (tuple keyed : Tuple) :
    Tends F L env (fun j => (evs j).groupingItems key position context tuple keyed)
      (ev.groupingItems key position context tuple keyed) := by
  unfold PlanEvaluator.groupingItems
  cases key.expression with
  | some e => exact h.evaluate e _ (.of_unmarked rfl)
  | none =>
    cases tuple.get? key.variableName with
    | some value => exact .items value position
    | none => exact .fail _

omit hc in
theorem groupedFrom (position : SourcePosition) (tuple : Tuple) (keys : List (GroupKey Plan))
    (keyed : Tuple) (done : GroupingKey) :
    Tends F L env (fun j => (evs j).groupedFrom position context tuple keys keyed done)
      (ev.groupedFrom position context tuple keys keyed done) := by
  induction keys generalizing keyed done with
  | nil => exact .pure _
  | cons key rest ih =>
    exact (h.groupingItems key position tuple keyed).bind fun _ => (Tends.ofResult _).bind fun _ =>
      ih _ _

omit hc in
theorem groupedTuple (keys : List (GroupKey Plan)) (position : SourcePosition) (tuple : Tuple) :
    Tends F L env (fun j => (evs j).groupedTuple keys position context tuple)
      (ev.groupedTuple keys position context tuple) :=
  h.groupedFrom position tuple keys tuple []

omit h hc in
theorem groupValues (position : SourcePosition) (name : String) (group : List Tuple) :
    Tends F L env (fun _ => PlanEvaluator.groupValues position name group)
      (PlanEvaluator.groupValues position name group) := by
  refine (Tends.listMapM (fun tuple => ?_) group).bind fun _ => .pure _
  cases tuple.get? name with
  | some value => exact .items value position
  | none => exact .pure _

omit h hc in
theorem bindGroupValues (position : SourcePosition) (group : List Tuple) (names : List String)
    (tuple : Tuple) :
    Tends F L env (fun _ => PlanEvaluator.bindGroupValues position group names tuple)
      (PlanEvaluator.bindGroupValues position group names tuple) := by
  induction names generalizing tuple with
  | nil => exact .pure _
  | cons name rest ih => exact (groupValues position name group).bind fun _ => ih _

omit h hc in
theorem linearize (keys : List (GroupKey Plan)) (position : SourcePosition)
    (group : GroupingKey × List Tuple) :
    Tends F L env (fun _ => PlanEvaluator.linearize keys position group)
      (PlanEvaluator.linearize keys position group) := by
  obtain ⟨key, _ | ⟨first, rest⟩⟩ := group
  · exact .pure _
  · exact (bindGroupValues position _ _ _).bind fun _ => .pure _

omit h hc in
theorem linearized (keys : List (GroupKey Plan)) (position : SourcePosition)
    (pairs : List (GroupingKey × Tuple)) :
    Tends F L env (fun _ => PlanEvaluator.linearized keys position pairs)
      (PlanEvaluator.linearized keys position pairs) :=
  .listMapM (fun group => linearize keys position group) _

omit hc in
theorem shuffled (keys : List (GroupKey Plan)) (position : SourcePosition)
    (tuples : Collection Tuple) :
    Tends F L env (fun j => (evs j).shuffled keys position context tuples)
      (ev.shuffled keys position context tuples) :=
  (Tends.log _ _).bind fun _ =>
    (Tends.collectionMapM (fun tuple => h.groupedTuple keys position tuple) tuples).bind fun _ =>
      (Tends.count _).bind fun _ => (Tends.log _ _).bind fun _ =>
        .collectionMapM (fun group => linearize keys position group) _

/-! ## Built-in functions -/

omit h hc in
theorem builtinArgument (b : Builtin) (arguments : List Plan) (index : Nat) :
    Tends F L env (fun _ => PlanEvaluator.builtinArgument b arguments index)
      (PlanEvaluator.builtinArgument b arguments index) := by
  unfold PlanEvaluator.builtinArgument
  cases arguments[index]? with
  | some p => exact .pure p
  | none => exact .fail _

theorem sourceLocation (b : Builtin) (arguments : List Plan) :
    Tends F L env (fun j => (evs j).sourceLocation b arguments context)
      (ev.sourceLocation b arguments context) := by
  refine (builtinArgument b arguments 0).bind fun p => (h.optionalItem hc p _).bind fun o => ?_
  rcases o with _ | i
  · exact .fail _
  · cases i <;> first | exact .pure _ | exact .fail _

theorem sourcePartitions (arguments : List Plan) :
    Tends F L env (fun j => (evs j).sourcePartitions arguments context)
      (ev.sourcePartitions arguments context) := by
  refine Tends.environment.bind fun e => ?_
  cases arguments[1]? with
  | none => exact .pure _
  | some p =>
    refine (h.optionalItem hc p _).bind fun o => ?_
    rcases o with _ | i
    · exact .pure _
    · cases i with
      | integer n =>
        by_cases hn : n > 0
        · simpa [hn] using .pure _
        · simpa [hn] using Tends.fail _
      | _ => exact .fail _

theorem wholeInput (b : Builtin) (arguments : List Plan) :
    Tends F L env (fun j => (evs j).wholeInput b arguments context)
      (ev.wholeInput b arguments context) :=
  (builtinArgument b arguments 0).bind fun p => h.evaluate p context hc

theorem atomicInput (b : Builtin) (arguments : List Plan) :
    Tends F L env (fun j => (evs j).atomicInput b arguments context)
      (ev.atomicInput b arguments context) :=
  (builtinArgument b arguments 0).bind fun p => h.optionalItem hc p _

omit h hc in
theorem textLines (location : String) (partitions : Nat) :
    Tends F L env (fun _ => Engine.textLines location partitions)
      (Engine.textLines location partitions) := by
  have hsource : Tends F L env (fun _ => Engine.sourceText location)
      (Engine.sourceText location) := by
    refine Tends.environment.bind fun e => ?_
    cases SourceLocation.path location with
    | error fault => exact .pure _
    | ok path => exact (Tends.consult path).bind fun _ => .pure _
  have hlines : Tends F L env (fun _ => Engine.textLines? location partitions)
      (Engine.textLines? location partitions) := by
    refine hsource.bind fun text => ?_
    cases text with
    | error fault => exact .pure _
    | ok text => exact (Tends.log _ _).bind fun _ => .pure _
  refine hlines.bind fun lines => ?_
  cases lines with
  | error fault => exact .fail _
  | ok lines => exact .pure _

omit h hc in
theorem jsonLines (location : String) (partitions : Nat) :
    Tends F L env (fun _ => Engine.jsonLines location partitions)
      (Engine.jsonLines location partitions) :=
  (textLines location partitions).bind fun _ => .ofResult _

theorem sourceFrame (b : Builtin) (arguments : List Plan) :
    Tends F L env (fun j => (evs j).sourceFrame b arguments context)
      (ev.sourceFrame b arguments context) := by
  cases b with
  | structuredJsonFile =>
    exact (h.sourceLocation hc _ arguments).bind fun location => Tends.environment.bind fun e =>
      (jsonLines location _).bind fun _ => .ofResult _
  | _ => exact .fail _

omit h hc in
theorem countRecords (rows : Collection Item) :
    Tends F L env (fun _ => PlanEvaluator.countRecords rows) (PlanEvaluator.countRecords rows) :=
  (Tends.count _).bind fun _ => .pure _

theorem sourceRows (b : Builtin) (arguments : List Plan) :
    Tends F L env (fun j => (evs j).sourceRows b arguments context)
      (ev.sourceRows b arguments context) := by
  cases b with
  | jsonFile =>
    exact (h.sourceLocation hc _ arguments).bind fun location =>
      (h.sourcePartitions hc arguments).bind fun n => (jsonLines location n).bind fun _ =>
        countRecords _
  | textFile =>
    exact (h.sourceLocation hc _ arguments).bind fun location =>
      (h.sourcePartitions hc arguments).bind fun n => (textLines location n).bind fun _ =>
        countRecords _
  | structuredJsonFile =>
    exact (h.sourceFrame hc _ arguments).bind fun _ => countRecords _
  | parallelize =>
    exact (h.wholeInput hc _ arguments).bind fun _ => (h.sourcePartitions hc arguments).bind
      fun _ => .pure _
  | _ => exact .fail _

theorem firstItem (b : Builtin) (arguments : List Plan) :
    Tends F L env (fun j => (evs j).firstItem b arguments context)
      (ev.firstItem b arguments context) := by
  refine (builtinArgument b arguments 0).bind fun p => ?_
  cases hp : p.mode.isParallel with
  | true => simpa [hp] using (h.rows p context hc).bind fun _ => .pure _
  | false => simpa [hp] using h.firstOnHost p context hc

theorem isEmptyInput (b : Builtin) (arguments : List Plan) :
    Tends F L env (fun j => (evs j).isEmptyInput b arguments context)
      (ev.isEmptyInput b arguments context) := by
  refine (builtinArgument b arguments 0).bind fun p => ?_
  cases hp : p.mode.isParallel with
  | true => simpa [hp] using (h.rows p context hc).bind fun _ => .pure _
  | false => simpa [hp] using h.emptyOnHost p context hc

theorem inputCount (b : Builtin) (arguments : List Plan) :
    Tends F L env (fun j => (evs j).inputCount b arguments context)
      (ev.inputCount b arguments context) := by
  refine (builtinArgument b arguments 0).bind fun p => ?_
  cases p.mode with
  | columns => exact (h.planFrame p context hc).bind fun _ => .pure _
  | rows => exact (h.rows p context hc).bind fun _ => .pure _
  | unset | host => exact (h.evaluate p context hc).bind fun _ => .pure _

theorem construct (b : Builtin) (arguments : List Plan) (type : ItemType) :
    Tends F L env (fun j => (evs j).construct b arguments context type)
      (ev.construct b arguments context type) := by
  refine (h.atomicInput hc b arguments).bind fun o => ?_
  rcases o with _ | i
  · exact .pure _
  · cases i with
    | string text => exact (Tends.ofResult _).bind fun _ => .pure _
    | _ =>
      dsimp only
      split
      · exact .pure _
      · exact .fail _

theorem component (b : Builtin) (arguments : List Plan) (read : Item → EngineResult Sequence) :
    Tends F L env (fun j => (evs j).component b arguments context read)
      (ev.component b arguments context read) := by
  refine (h.atomicInput hc b arguments).bind fun o => ?_
  cases o with
  | none => exact .pure _
  | some i => exact .ofResult _

theorem arraySize (b : Builtin) (arguments : List Plan) :
    Tends F L env (fun j => (evs j).arraySize b arguments context)
      (ev.arraySize b arguments context) := by
  refine (builtinArgument b arguments 0).bind fun p => (h.optionalItem hc p _).bind fun o => ?_
  rcases o with _ | i
  · exact .pure _
  · cases i <;> first | exact .pure _ | exact .fail _

theorem sourceItems (b : Builtin) (arguments : List Plan) :
    Tends F L env (fun j => (evs j).sourceItems b arguments context)
      (ev.sourceItems b arguments context) :=
  (h.sourceRows hc b arguments).bind fun rows => (builtinArgument b arguments 0).bind fun p =>
    .materialize rows p.position

theorem builtinItems (b : Builtin) (arguments : List Plan) :
    Tends F L env (fun j => (evs j).builtinItems b arguments context)
      (ev.builtinItems b arguments context) := by
  cases b with
  | jsonFile | textFile | structuredJsonFile | parallelize =>
    exact h.sourceItems hc _ arguments
  | count => exact (h.inputCount hc _ arguments).bind fun _ => .pure _
  | empty | nonEmpty => exact (h.isEmptyInput hc _ arguments).bind fun _ => .pure _
  | sum => exact (h.wholeInput hc _ arguments).bind fun _ => (Tends.ofResult _).bind fun _ => .pure _
  | keys | intersect => exact (h.wholeInput hc _ arguments).bind fun _ => .pure _
  | size => exact h.arraySize hc _ arguments
  | head => exact h.firstItem hc _ arguments
  | yearFromDateTime | timezoneFromTime => exact h.component hc _ arguments _
  | _ => exact h.construct hc _ arguments _

/-! ## Nodes -/

theorem compute (computation : Computation) :
    Tends F L env (fun j => (evs j).compute context computation)
      (ev.compute context computation) := by
  cases computation with
  | literal | inlineFunction => exact .pure _
  | contextItem => exact .ofResult _
  | arithmetic op left right => exact h.binary hc left right _
  | comparison op left right => exact h.binary hc left right _
  | logical op left right => exact (h.connective hc op left right).bind fun _ => .pure _
  | not operand =>
    exact (h.evaluate operand context hc).bind fun _ => (Tends.ofResult _).bind fun _ => .pure _
  | object pairs => exact (h.objectPairs hc pairs []).bind fun _ => .pure _
  | array members =>
    cases members with
    | none => exact .pure _
    | some members => exact (h.evaluate members context hc).bind fun _ => .pure _
  | builtin b arguments => exact h.builtinItems hc b arguments
  | functionRef name arity => exact (namedFunction name arity).bind fun _ => .pure _

theorem rangeBound (p : Plan) :
    Tends F L env (fun j => (evs j).rangeBound p context) (ev.rangeBound p context) := by
  refine (h.optionalItem hc p _).bind fun o => ?_
  rcases o with _ | i
  · exact .pure _
  · cases i <;> first | exact .pure _ | exact .fail _

end PlanEvaluator.Follows
end HybridQuery
