import HybridQuery.Evaluation.Driving

/-!
# Inherited properties

Properties of computations that a computation has if everything it is made of has them. Whatever an evaluation
computes from evaluations of plans then has such a property if these have it.

* `Engine.Inherited`: there is one rule for every way to make a computation.
* `Engine.Inherited.listMapM` and its like: computations for all members of a list or a collection.
* `PlanEvaluator.Within`: evaluators of plans whose evaluations have a property.
* `PlanEvaluator.Within.compute`, `PlanEvaluator.Within.callRows` and their like: one lemma for each
  function of `PlanEvaluator`.
-/

namespace HybridQuery

/-- The environment with another cap. -/
def Environment.withCap (env : Environment) (cap : Option Nat) : Environment :=
  { env with materializationCap := cap }

/-- A property of computations that a whole inherits from its parts. The cap is read nowhere but where a
collection is pulled to the host, and no part opens or closes a function body. -/
structure Engine.Inherited (P : ∀ α : Type, Engine α → Prop) : Prop where
  pure {α : Type} (a : α) : P α (pure a)
  bind {α β : Type} {x : Engine α} {f : α → Engine β} (hx : P α x) (hf : ∀ a, P β (f a)) :
    P β (x >>= f)
  raise {α : Type} (e : EngineError) : P α (Run.raise e)
  locate {α : Type} {x : Engine α} (hx : P α x) (position : SourcePosition) :
    P α (x.locate position)
  environment {α : Type} {f : Environment → Engine α}
    (hcap : ∀ env cap, f (env.withCap cap) = f env) (hf : ∀ env, P α (f env)) :
    P α (Run.environment >>= f)
  materialize {α : Type} (rows : Collection α) (position : SourcePosition) :
    P (List α) (Engine.materialize rows position)
  count {change : Metrics → Metrics} (hopened : ∀ m, (change m).bodiesOpened = m.bodiesOpened)
    (hclosed : ∀ m, (change m).bodiesClosed = m.bodiesClosed) : P Unit (Engine.count change)
  log (event : Event) (fields : List LogField) : P Unit (Engine.log event fields)
  consult (path : String) : P Unit (Engine.consult path)

namespace Engine.Inherited

variable {P : ∀ α : Type, Engine α → Prop} (I : Inherited P) {α β : Type}
include I

theorem map {x : Engine α} (hx : P α x) (f : α → β) : P β (f <$> x) := by
  rw [map_eq_pure_bind]
  exact I.bind hx fun a => I.pure (f a)

theorem fail (fault : Fault) : P α (Run.fail fault) := I.raise _

theorem ofResult (d : EngineResult α) : P α (Run.ofResult d) := by
  cases d with
  | ok a => exact I.pure a
  | error e => exact I.raise e

theorem listMapM {f : α → Engine β} (hf : ∀ a, P β (f a)) (l : List α) : P (List β) (l.mapM f) := by
  induction l with
  | nil => exact I.pure []
  | cons a l ih =>
    rw [List.mapM_cons]
    exact I.bind (hf a) fun _ => I.bind ih fun _ => I.pure _

theorem collectionMapM {f : α → Engine β} (hf : ∀ a, P β (f a)) (c : Collection α) :
    P (Collection β) (c.mapM f) :=
  I.bind (I.listMapM (fun partition => I.listMapM hf partition) c.partitions) fun _ => I.pure _

theorem flatMapM {f : α → Engine (List β)} (hf : ∀ a, P (List β) (f a)) (c : Collection α) :
    P (Collection β) (c.flatMapM f) :=
  I.bind (I.listMapM (fun partition => I.bind (I.listMapM hf partition) fun _ => I.pure _)
    c.partitions) fun _ => I.pure _

theorem filterM {f : α → Engine Bool} (hf : ∀ a, P Bool (f a)) (c : Collection α) :
    P (Collection α) (c.filterM f) :=
  I.flatMapM (fun a => I.bind (hf a) fun _ => I.pure _) c

/-! ## Values and sources -/

theorem rows (value : Value Item) : P (Collection Item) (Engine.rows value) := by
  cases value with
  | items items => exact I.environment (fun _ _ => rfl) fun _ => I.pure _
  | rows rows => exact I.pure rows
  | columns frame => exact I.pure frame.toRows

theorem items (value : Value Item) (position : SourcePosition) :
    P Sequence (Engine.items value position) := by
  cases value with
  | items items => exact I.pure items
  | rows rows => exact I.materialize rows position
  | columns frame => exact I.materialize frame.toRows position

theorem sourceText (location : String) :
    P (Except SourceFault String) (Engine.sourceText location) := by
  refine I.environment (fun _ _ => rfl) fun env => ?_
  cases SourceLocation.path location with
  | error fault => exact I.pure _
  | ok path => exact I.bind (I.consult path) fun _ => I.pure _

theorem textLines (location : String) (partitions : Nat) :
    P (Collection String) (Engine.textLines location partitions) := by
  have hlines : P _ (Engine.textLines? location partitions) := by
    refine I.bind (I.sourceText location) fun text => ?_
    cases text with
    | error fault => exact I.pure _
    | ok text => exact I.bind (I.log _ _) fun _ => I.pure _
  refine I.bind hlines fun lines => ?_
  cases lines with
  | error fault => exact I.fail _
  | ok lines => exact I.pure lines

theorem jsonLines (location : String) (partitions : Nat) :
    P (Collection Item) (Engine.jsonLines location partitions) :=
  I.bind (I.textLines location partitions) fun _ => I.ofResult _

theorem jsonFrame (location : String) : P (Frame Item) (Engine.jsonFrame location) :=
  I.environment (fun _ _ => rfl) fun _ => I.bind (I.jsonLines location _) fun _ => I.ofResult _

theorem valueIn (mode : Mode) {items : Engine Sequence} {rows : Engine (Collection Item)}
    {frame : Engine (Frame Item)} (hi : P _ items) (hr : P _ rows) (hf : P _ frame) :
    P _ (Engine.valueIn mode items rows frame) := by
  unfold Engine.valueIn
  cases mode with
  | unset | host => exact I.map hi _
  | rows => exact I.map hr _
  | columns => exact I.map hf _

end Engine.Inherited

/-! ## Evaluators of plans -/

/-- Every way to evaluate a plan has a property. -/
structure PlanEvaluator.Within (P : ∀ α : Type, Engine α → Prop) (ev : PlanEvaluator) : Prop where
  evaluate (p : Plan) (context : Context) : P _ (ev.evaluate p context)
  rows (p : Plan) (context : Context) : P _ (ev.rows p context)
  planFrame (p : Plan) (context : Context) : P _ (ev.planFrame p context)
  firstOnHost (p : Plan) (context : Context) : P _ (ev.firstOnHost p context)
  emptyOnHost (p : Plan) (context : Context) : P _ (ev.emptyOnHost p context)

namespace Engine.Inherited

open PlanEvaluator

variable {P : ∀ α : Type, Engine α → Prop} (I : Inherited P)
include I

/-! ## Computations that evaluate no plan -/

theorem namedFunction (name : String) (arity : Nat) : P _ (namedFunction name arity) := by
  unfold PlanEvaluator.namedFunction
  cases Builtin.find? name arity with
  | some b => exact I.pure _
  | none => exact I.environment (fun _ _ => rfl) fun _ => I.ofResult _

theorem invocation (f : FunctionItem) (arguments : List (Option (Value Item))) :
    P _ (invocation f arguments) := I.environment (fun _ _ => rfl) fun _ => I.ofResult _

theorem promoteRows (type : SequenceType) (rows : Collection Item) : P _ (promoteRows type rows) := by
  unfold PlanEvaluator.promoteRows
  split
  · exact I.pure rows
  · exact I.environment (fun _ _ => rfl) fun _ => I.ofResult _

theorem builtinArgument (b : Builtin) (arguments : List Plan) (index : Nat) :
    P _ (builtinArgument b arguments index) := by
  unfold PlanEvaluator.builtinArgument
  cases arguments[index]? with
  | some p => exact I.pure p
  | none => exact I.fail _

theorem countRecords (rows : Collection Item) : P _ (countRecords rows) :=
  I.bind (I.count (fun _ => rfl) fun _ => rfl) fun _ => I.pure rows

theorem groupValues (position : SourcePosition) (name : String) (group : List Tuple) :
    P _ (groupValues position name group) := by
  refine I.bind (I.listMapM (fun tuple => ?_) group) fun _ => I.pure _
  cases tuple.get? name with
  | some value => exact I.items value position
  | none => exact I.pure []

theorem bindGroupValues (position : SourcePosition) (group : List Tuple) (names : List String)
    (tuple : Tuple) : P _ (bindGroupValues position group names tuple) := by
  induction names generalizing tuple with
  | nil => exact I.pure tuple
  | cons name rest ih => exact I.bind (I.groupValues position name group) fun _ => ih _

theorem linearize (keys : List (GroupKey Plan)) (position : SourcePosition)
    (group : GroupingKey × List Tuple) : P _ (linearize keys position group) := by
  obtain ⟨key, _ | ⟨first, rest⟩⟩ := group
  · exact I.pure _
  · exact I.bind (I.bindGroupValues position _ _ _) fun _ => I.pure _

theorem linearized (keys : List (GroupKey Plan)) (position : SourcePosition)
    (pairs : List (GroupingKey × Tuple)) : P _ (linearized keys position pairs) :=
  I.listMapM (fun group => I.linearize keys position group) _

end Engine.Inherited

namespace PlanEvaluator.Within

variable {P : ∀ α : Type, Engine α → Prop} {ev : PlanEvaluator} (h : ev.Within P)
  (I : Engine.Inherited P) {context : Context}
include h I

/-! ## Values, operands and truth values -/

theorem value (p : Plan) : P _ (ev.value p context) :=
  I.valueIn p.mode (h.evaluate p context) (h.rows p context) (h.planFrame p context)

theorem optionalItem (p : Plan) (what : String) : P _ (ev.optionalItem p context what) :=
  I.bind (h.evaluate p context) fun _ => I.ofResult _

theorem truth (p : Plan) : P _ (ev.truth p context) :=
  I.bind (h.evaluate p context) fun _ => I.ofResult _

theorem operand (p : Plan) : P _ (ev.operand p context) := by
  refine I.bind (h.optionalItem I p _) fun o => ?_
  cases o with
  | none => exact I.pure none
  | some i =>
    dsimp only
    split
    · exact I.pure (some i)
    · exact I.locate (I.fail _) p.position

theorem binary (left right : Plan) (apply : Item → Item → EngineResult Item) :
    P _ (ev.binary left right context apply) := by
  refine I.bind (h.operand I left) fun l => I.bind (h.operand I right) fun r => ?_
  rcases l with _ | l <;> rcases r with _ | r
  · exact I.pure []
  · exact I.pure []
  · exact I.pure []
  · exact I.bind (I.ofResult _) fun _ => I.pure _

theorem connective (op : LogicalOp) (left right : Plan) :
    P _ (ev.connective op left right context) := by
  refine I.bind (h.truth I left) fun b => ?_
  cases op <;> cases b
  · exact I.pure false
  · exact h.truth I right
  · exact h.truth I right
  · exact I.pure true

/-! ## Constructors -/

theorem pairKey (p : Plan) : P _ (ev.pairKey p context) := by
  refine I.bind (h.optionalItem I p _) fun o => ?_
  cases o with
  | none => exact I.locate (I.fail _) p.position
  | some i =>
    dsimp only
    split
    · exact I.pure _
    · exact I.locate (I.fail _) p.position

theorem objectPairs (pairs : List (Plan × Plan)) (done : List (String × Item)) :
    P _ (ev.objectPairs context done pairs) := by
  induction pairs generalizing done with
  | nil => exact I.pure done
  | cons pair rest ih =>
    obtain ⟨key, value⟩ := pair
    refine I.bind (h.pairKey I key) fun k => ?_
    split
    · exact I.locate (I.fail _) value.position
    · exact I.bind (h.evaluate value context) fun _ => ih _

/-! ## Navigation -/

theorem lookupKey (p : Plan) : P _ (ev.lookupKey p context) := by
  refine I.bind (h.optionalItem I p _) fun o => ?_
  cases o with
  | none => exact I.pure none
  | some i =>
    dsimp only
    split
    · exact I.pure _
    · exact I.fail _

theorem lookupIndex (p : Plan) : P _ (ev.lookupIndex p context) := by
  refine I.bind (h.optionalItem I p _) fun o => ?_
  rcases o with _ | i
  · exact I.pure none
  · cases i <;> first | exact I.pure _ | exact I.fail _

theorem stepOperand (step : NavigationStep) : P _ (ev.stepOperand step context) := by
  cases step with
  | objectLookup key => exact I.map (h.lookupKey I key) _
  | arrayLookup index => exact I.map (h.lookupIndex I index) _
  | arrayUnbox | filter => exact I.pure _

theorem keeps (predicate : Plan) (place : Nat) (i : Item) :
    P _ (ev.keeps predicate place i context) := by
  refine I.bind (h.evaluate predicate _) fun items => ?_
  rcases items with _ | ⟨r, _ | ⟨s, rest⟩⟩
  · exact I.ofResult _
  · dsimp only
    split
    · exact I.pure _
    · exact I.ofResult _
  · exact I.ofResult _

theorem applyStep (step : NavigationStep) (operand : StepOperand) (place : Nat) (i : Item) :
    P _ (ev.applyStep step operand place i context) := by
  unfold PlanEvaluator.applyStep
  split
  · exact I.pure _
  · exact I.pure _
  · exact I.pure _
  · exact I.bind (h.keeps I _ place i) fun _ => I.pure _
  · exact I.pure _

theorem stepFrame (step : NavigationStep) {input : Engine (Frame Item)} (hinput : P _ input) :
    P _ (ev.stepFrame step input context) := by
  refine I.bind (h.stepOperand I step) fun operand => ?_
  split
  · exact I.bind hinput fun _ => I.pure _
  · exact I.fail _
  · exact I.fail _

theorem stepRows (step : NavigationStep) (operand : StepOperand) (rows : Collection Item) :
    P _ (ev.stepRows step operand rows context) := by
  unfold PlanEvaluator.stepRows
  split
  · exact I.flatMapM (fun (i, index) => h.applyStep I step operand (index + 1) i) _
  · exact I.flatMapM (fun i => h.applyStep I step operand 0 i) rows

/-! ## Calls -/

theorem argumentValues (arguments : List (Option Plan)) :
    P _ (ev.argumentValues context arguments) := by
  induction arguments with
  | nil => exact I.pure []
  | cons argument rest ih =>
    cases argument with
    | none => exact I.bind ih fun _ => I.pure _
    | some p => exact I.bind (h.value I p) fun _ => I.bind ih fun _ => I.pure _

theorem namedCall (name : String) (arguments : List (Option Plan)) :
    P _ (ev.namedCall name arguments context) :=
  I.bind (I.namedFunction name _) fun f => I.bind (h.argumentValues I arguments) fun values =>
    I.bind (I.invocation f values) fun _ => I.pure _

theorem computedCall (function : Plan) (arguments : List (Option Plan)) (position : SourcePosition) :
    P _ (ev.computedCall function arguments position context) :=
  I.bind (h.evaluate function context) fun _ => I.bind (I.ofResult _) fun f =>
    I.bind (h.argumentValues I arguments) fun values =>
      I.bind (I.locate (I.invocation f values) position) fun _ => I.pure _

theorem fullCall (name : String) (arguments : List (Option Plan)) :
    P _ (ev.fullCall name arguments context) := by
  refine I.bind (h.namedCall I name arguments) fun call => ?_
  obtain ⟨f, left | inner⟩ := call
  · exact I.fail _
  · exact I.pure _

theorem bodyRows (mode : Mode) (f : FunctionItem) : P _ (ev.bodyRows mode f context) := by
  unfold PlanEvaluator.bodyRows
  split
  · exact I.bind (h.planFrame f.body context) fun _ => I.pure _
  · exact h.rows f.body context

theorem callRows (name : String) (arguments : List (Option Plan)) (mode : Mode) :
    P _ (ev.callRows name arguments mode context) :=
  I.bind (h.fullCall I name arguments) fun (f, _) =>
    I.bind (h.bodyRows I mode f) fun _ => I.promoteRows _ _

theorem callFrame (name : String) (arguments : List (Option Plan)) :
    P _ (ev.callFrame name arguments context) :=
  I.bind (h.fullCall I name arguments) fun (f, inner) => h.planFrame f.body inner

/-! ## Clauses on distributed tuples -/

omit h in
theorem expandedRows (v : ForVariables) (allowingEmpty : Bool) {items : Context → Engine Sequence}
    (hitems : ∀ context, P _ (items context)) (tuples : Collection Tuple) :
    P _ (PlanEvaluator.expandedRows v allowingEmpty items context tuples) :=
  I.flatMapM (fun _ => I.bind (hitems _) fun _ => I.pure _) tuples

theorem boundRows (name : String) (value : Plan) (tuples : Collection Tuple) :
    P _ (ev.boundRows name value context tuples) :=
  I.collectionMapM (fun _ => I.bind (h.evaluate value _) fun _ => I.pure _) tuples

theorem keptRows (condition : Plan) (tuples : Collection Tuple) :
    P _ (ev.keptRows condition context tuples) := I.filterM (fun _ => h.truth I condition) tuples

theorem projectedRows (result : Plan) (tuples : Collection Tuple) :
    P _ (ev.projectedRows result context tuples) := I.flatMapM (fun _ => h.evaluate result _) tuples

/-! ## Ordering and grouping -/

theorem sortComponent (key : OrderKey Plan) : P _ (ev.sortComponent key context) := by
  refine I.bind (h.optionalItem I key.expression _) fun o => ?_
  cases o with
  | none => exact I.pure none
  | some i =>
    dsimp only
    split
    · exact I.pure (some i)
    · exact I.locate (I.fail _) key.expression.position

theorem keyedTuple (keys : List (OrderKey Plan)) (tuple : Tuple) :
    P _ (ev.keyedTuple keys context tuple) :=
  I.bind (I.listMapM (fun key => h.sortComponent I key) keys) fun _ => I.pure _

theorem sortedRows (keys : List (OrderKey Plan)) (tuples : Collection Tuple) :
    P _ (ev.sortedRows keys context tuples) :=
  I.bind (I.collectionMapM (fun tuple => h.keyedTuple I keys tuple) tuples) fun _ =>
    I.bind (I.ofResult _) fun _ => I.bind (I.count (fun _ => rfl) fun _ => rfl) fun _ => I.pure _

theorem groupingItems (key : GroupKey Plan) (position : SourcePosition) (tuple keyed : Tuple) :
    P _ (ev.groupingItems key position context tuple keyed) := by
  unfold PlanEvaluator.groupingItems
  cases key.expression with
  | some e => exact h.evaluate e _
  | none =>
    cases tuple.get? key.variableName with
    | some value => exact I.items value position
    | none => exact I.fail _

theorem groupedFrom (position : SourcePosition) (tuple : Tuple) (keys : List (GroupKey Plan))
    (keyed : Tuple) (done : GroupingKey) :
    P _ (ev.groupedFrom position context tuple keys keyed done) := by
  induction keys generalizing keyed done with
  | nil => exact I.pure _
  | cons key rest ih =>
    exact I.bind (h.groupingItems I key position tuple keyed) fun _ =>
      I.bind (I.ofResult _) fun _ => ih _ _

theorem groupedTuple (keys : List (GroupKey Plan)) (position : SourcePosition) (tuple : Tuple) :
    P _ (ev.groupedTuple keys position context tuple) := h.groupedFrom I position tuple keys tuple []

theorem shuffled (keys : List (GroupKey Plan)) (position : SourcePosition)
    (tuples : Collection Tuple) : P _ (ev.shuffled keys position context tuples) :=
  I.bind (I.log _ _) fun _ =>
    I.bind (I.collectionMapM (fun tuple => h.groupedTuple I keys position tuple) tuples) fun _ =>
      I.bind (I.count (fun _ => rfl) fun _ => rfl) fun _ => I.bind (I.log _ _) fun _ =>
        I.collectionMapM (fun group => I.linearize keys position group) _

/-! ## Built-in functions -/

theorem sourceLocation (b : Builtin) (arguments : List Plan) :
    P _ (ev.sourceLocation b arguments context) := by
  refine I.bind (I.builtinArgument b arguments 0) fun p => I.bind (h.optionalItem I p _) fun o => ?_
  rcases o with _ | i
  · exact I.fail _
  · cases i <;> first | exact I.pure _ | exact I.fail _

theorem sourcePartitions (arguments : List Plan) : P _ (ev.sourcePartitions arguments context) := by
  refine I.environment (fun _ _ => rfl) fun env => ?_
  cases arguments[1]? with
  | none => exact I.pure _
  | some p =>
    refine I.bind (h.optionalItem I p _) fun o => ?_
    rcases o with _ | i
    · exact I.pure _
    · cases i with
      | integer n =>
        dsimp only
        split
        · exact I.pure _
        · exact I.fail _
      | _ => exact I.fail _

theorem wholeInput (b : Builtin) (arguments : List Plan) :
    P _ (ev.wholeInput b arguments context) :=
  I.bind (I.builtinArgument b arguments 0) fun p => h.evaluate p context

theorem atomicInput (b : Builtin) (arguments : List Plan) :
    P _ (ev.atomicInput b arguments context) :=
  I.bind (I.builtinArgument b arguments 0) fun p => h.optionalItem I p _

theorem sourceFrame (b : Builtin) (arguments : List Plan) :
    P _ (ev.sourceFrame b arguments context) := by
  cases b with
  | structuredJsonFile =>
    exact I.bind (h.sourceLocation I _ arguments) fun location => I.jsonFrame location
  | _ => exact I.fail _

theorem sourceRows (b : Builtin) (arguments : List Plan) :
    P _ (ev.sourceRows b arguments context) := by
  cases b with
  | jsonFile =>
    exact I.bind (h.sourceLocation I _ arguments) fun location =>
      I.bind (h.sourcePartitions I arguments) fun n => I.bind (I.jsonLines location n) fun _ =>
        I.countRecords _
  | textFile =>
    exact I.bind (h.sourceLocation I _ arguments) fun location =>
      I.bind (h.sourcePartitions I arguments) fun n => I.bind (I.textLines location n) fun _ =>
        I.countRecords _
  | structuredJsonFile => exact I.bind (h.sourceFrame I _ arguments) fun _ => I.countRecords _
  | parallelize =>
    exact I.bind (h.wholeInput I _ arguments) fun _ => I.bind (h.sourcePartitions I arguments) fun _ =>
      I.pure _
  | _ => exact I.fail _

theorem firstItem (b : Builtin) (arguments : List Plan) : P _ (ev.firstItem b arguments context) := by
  refine I.bind (I.builtinArgument b arguments 0) fun p => ?_
  split
  · exact I.bind (h.rows p context) fun _ => I.pure _
  · exact h.firstOnHost p context

theorem isEmptyInput (b : Builtin) (arguments : List Plan) :
    P _ (ev.isEmptyInput b arguments context) := by
  refine I.bind (I.builtinArgument b arguments 0) fun p => ?_
  split
  · exact I.bind (h.rows p context) fun _ => I.pure _
  · exact h.emptyOnHost p context

theorem inputCount (b : Builtin) (arguments : List Plan) :
    P _ (ev.inputCount b arguments context) := by
  refine I.bind (I.builtinArgument b arguments 0) fun p => ?_
  cases p.mode with
  | columns => exact I.bind (h.planFrame p context) fun _ => I.pure _
  | rows => exact I.bind (h.rows p context) fun _ => I.pure _
  | unset | host => exact I.bind (h.evaluate p context) fun _ => I.pure _

theorem construct (b : Builtin) (arguments : List Plan) (type : ItemType) :
    P _ (ev.construct b arguments context type) := by
  refine I.bind (h.atomicInput I b arguments) fun o => ?_
  rcases o with _ | i
  · exact I.pure []
  · cases i with
    | string text => exact I.bind (I.ofResult _) fun _ => I.pure _
    | _ =>
      dsimp only
      split
      · exact I.pure _
      · exact I.fail _

theorem component (b : Builtin) (arguments : List Plan) (read : Item → EngineResult Sequence) :
    P _ (ev.component b arguments context read) := by
  refine I.bind (h.atomicInput I b arguments) fun o => ?_
  cases o with
  | none => exact I.pure []
  | some i => exact I.ofResult _

theorem arraySize (b : Builtin) (arguments : List Plan) : P _ (ev.arraySize b arguments context) := by
  refine I.bind (I.builtinArgument b arguments 0) fun p => I.bind (h.optionalItem I p _) fun o => ?_
  rcases o with _ | i
  · exact I.pure []
  · cases i <;> first | exact I.pure _ | exact I.fail _

theorem sourceItems (b : Builtin) (arguments : List Plan) :
    P _ (ev.sourceItems b arguments context) :=
  I.bind (h.sourceRows I b arguments) fun rows => I.bind (I.builtinArgument b arguments 0) fun p =>
    I.materialize rows p.position

theorem builtinItems (b : Builtin) (arguments : List Plan) :
    P _ (ev.builtinItems b arguments context) := by
  cases b with
  | jsonFile | textFile | structuredJsonFile | parallelize => exact h.sourceItems I _ arguments
  | count => exact I.bind (h.inputCount I _ arguments) fun _ => I.pure _
  | empty | nonEmpty => exact I.bind (h.isEmptyInput I _ arguments) fun _ => I.pure _
  | sum =>
    exact I.bind (h.wholeInput I _ arguments) fun _ => I.bind (I.ofResult _) fun _ => I.pure _
  | keys | intersect => exact I.bind (h.wholeInput I _ arguments) fun _ => I.pure _
  | size => exact h.arraySize I _ arguments
  | head => exact h.firstItem I _ arguments
  | yearFromDateTime | timezoneFromTime => exact h.component I _ arguments _
  | _ => exact h.construct I _ arguments _

/-! ## Nodes -/

theorem compute (computation : Computation) : P _ (ev.compute context computation) := by
  cases computation with
  | literal | inlineFunction => exact I.pure _
  | contextItem => exact I.ofResult _
  | arithmetic op left right => exact h.binary I left right _
  | comparison op left right => exact h.binary I left right _
  | logical op left right => exact I.bind (h.connective I op left right) fun _ => I.pure _
  | not operand =>
    exact I.bind (h.evaluate operand context) fun _ => I.bind (I.ofResult _) fun _ => I.pure _
  | object pairs => exact I.bind (h.objectPairs I pairs []) fun _ => I.pure _
  | array members =>
    cases members with
    | none => exact I.pure _
    | some members => exact I.bind (h.evaluate members context) fun _ => I.pure _
  | builtin b arguments => exact h.builtinItems I b arguments
  | functionRef name arity => exact I.bind (I.namedFunction name arity) fun _ => I.pure _

theorem rangeBound (p : Plan) : P _ (ev.rangeBound p context) := by
  refine I.bind (h.optionalItem I p _) fun o => ?_
  rcases o with _ | i
  · exact I.pure none
  · cases i <;> first | exact I.pure _ | exact I.fail _

end PlanEvaluator.Within

end HybridQuery
