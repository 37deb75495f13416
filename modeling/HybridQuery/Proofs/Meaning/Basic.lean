import HybridQuery.Evaluation.Driving
import HybridQuery.Proofs.Meaning.Trace

/-!
# The meaning of plans

What a plan yields, said without cursors: a trace of items for a plan on the host, a collection or a
frame for a distributed one. A plan that is pulled through a cursor behaves as its trace says, with
the lookahead of every cursor in between taken into account (`Trace.ahead`).

* `Meaning`: what plans and chains of clauses yield. `Meaning.plans` evaluates plans by it.
* `NodeMeaning`: what nodes yield whatever their modes; `NodeMeaning.driven` takes the modes into
  account, and `NodeMeaning.above` says what nodes make of a meaning of everything below them.
* `Meaning.ofDepth`: the meaning of everything that is at most so many nodes deep.
-/

namespace HybridQuery

/-- Handles tell contexts apart: `marks` says which scopes a handle stands for. -/
def Context.Known (marks : Nat → List Bindings) (c : Context) : Prop :=
  ∀ handle, c.handle = some handle → marks handle = c.scopes

theorem Context.Known.of_unmarked {marks : Nat → List Bindings} {c : Context}
    (h : c.handle = none) : c.Known marks := fun _ hs => by rw [h] at hs; cases hs

theorem Context.Known.eq_marked {marks : Nat → List Bindings} {c : Context} (h : c.Known marks)
    {handle : Nat} (hs : c.handle = some handle) : c = ⟨some handle, marks handle⟩ := by
  rw [h handle hs, ← hs]

theorem Tuple.known_scope {marks : Nat → List Bindings} (tuple : Tuple) (context : Context) :
    (tuple.scope context).Known marks := .of_unmarked rfl

namespace Engine

variable {α : Type}

/-- The result of a computation on an empty record. -/
def result (x : Engine α) (env : Environment) : Except Failure α :=
  match x env .empty with
  | .ok a _ => .ok a
  | .error f _ => .error f

/-- The computation that gives a result and records nothing. -/
def given (r : Environment → Except Failure α) : Engine α := fun env record =>
  match r env with
  | .ok a => .ok a record
  | .error f => .error f record

/-- The trace of a list that a computation gives. -/
def trace (x : Engine (List α)) (env : Environment) : Trace α := .ofResult (x.result env)

end Engine

/-- What plans and chains of clauses yield. -/
structure Meaning where
  /-- What pulling a plan gives. -/
  items : Environment → Context → Plan → Trace Item
  /-- The distributed form of a plan. -/
  rows : Plan → Context → Engine (Collection Item)
  /-- The columnar form of a plan. -/
  frame : Plan → Context → Engine (Frame Item)
  /-- What pulling a clause over a chain of clauses gives. -/
  clause : Environment → Context → Mode → SourcePosition → ClauseOperation → Pipeline → Trace Tuple
  /-- The distributed form of a clause over a chain of clauses. -/
  clauseRows : Mode → SourcePosition → ClauseOperation → Pipeline → Context →
    Engine (Collection Tuple)

namespace Meaning

/-! ## Evaluating plans -/

/-- Evaluates plans by their meaning. -/
def plans (M : Meaning) : PlanEvaluator where
  evaluate p context := Engine.given fun env => (M.items env context p).result
  rows := M.rows
  planFrame := M.frame
  firstOnHost p context := Engine.given fun env => (M.items env context p).ahead.first
  emptyOnHost p context := Engine.given fun env => (M.items env context p).isEmpty

/-- The tuples that a clause pulls from the chain before it. -/
def feed (M : Meaning) (env : Environment) (context : Context) : Pipeline → Trace Tuple
  | .start => .one .empty
  | .clause mode position operation before =>
    (M.clause env context mode position operation before).ahead

/-- The tuples of a chain in distributed form. -/
def feedRows (M : Meaning) (context : Context) : Pipeline → Engine (Collection Tuple)
  | .start => return .parallelize [.empty] 1
  | .clause mode position operation before =>
    M.clauseRows mode position operation before context

/-! ## Expressions on the host -/

/-- What a result that is pulled gives when it is taken to the type of a call. -/
def checked (type : SequenceType) (c : Catalogue) : Nat → Trace Item → Trace Item
  | produced, .done => .attempt (type.checkCount produced).toEngine.raised fun _ => .done
  | _, .failed f => .failed f
  | produced, .item i rest =>
    .attempt (type.promoteProduced c (produced + 1) i).toEngine.raised fun j =>
      .item j (checked type c (produced + 1) rest)

/-- The integers from one on, as many as are given. -/
def countUp (n : Int64) : Nat → List Item
  | 0 => []
  | count + 1 => .integer n :: countUp (n + 1) count

/-- The integers between two bounds. -/
def rangeItems (low high : Option Int64) : List Item :=
  match low, high with
  | some low, some high => countUp low (high.toInt - low.toInt + 1).toNat
  | _, _ => []

section
variable (M : Meaning) (env : Environment) (context : Context)

/-- What a call that passed its checks gives. -/
def callItems : FunctionItem × Invocation → Trace Item
  | (_, .partially left) => .one (.function left)
  | (f, .fully inner) => checked f.signature.returnType env.catalogue 0 (M.items env inner f.body).ahead

/-- What the members of a sequence give, one after the other. -/
def memberItems : List Plan → Trace Item
  | [] => .done
  | p :: rest => (M.items env context p).ahead.append (memberItems rest)

/-- What pulling an operation on the host gives. -/
def operationItems (position : SourcePosition) : Operation → Trace Item
  | .compute computation => (M.plans.compute context computation).trace env
  | .varRef name =>
    Engine.trace (do Engine.items (← Run.ofResult (context.binding name)) position) env
  | .sequence members => M.memberItems env context members
  | .range first last =>
    .attempt ((M.plans.rangeBound first context).result env) fun low =>
      .attempt ((M.plans.rangeBound last context).result env) fun high =>
        .ofList (rangeItems low high)
  | .conditional condition yes no =>
    .attempt ((M.plans.truth condition context).result env) fun chosen =>
      (M.items env context (if chosen then yes else no)).ahead
  | .navigate step input =>
    .attempt ((M.plans.stepOperand step context).result env) fun operand =>
      (M.items env context input).ahead.bindFrom
        (fun place i => (M.plans.applyStep step operand place i context).trace env) 1
  | .staticCall name arguments =>
    .attempt ((M.plans.namedCall name arguments context).result env) (M.callItems env)
  | .dynamicCall function arguments =>
    .attempt ((M.plans.computedCall function arguments position context).result env)
      (M.callItems env)
  | .flwor pipeline result =>
    (M.feed env context pipeline).bind fun tuple => (M.items env (tuple.scope context) result).ahead

end

/-! ## Distributed and columnar forms of expressions -/

section
variable (M : Meaning)

/-- The distributed forms of members after those that are done. -/
def memberRows (context : Context) (done : Collection Item) : List Plan → Engine (Collection Item)
  | [] => return done
  | p :: rest => do memberRows context (done.union (← M.rows p context)) rest

/-- The distributed form of an operation. -/
def operationRows (mode : Mode) (context : Context) : Operation → Engine (Collection Item)
  | .compute (.builtin b arguments) => M.plans.sourceRows b arguments context
  | .varRef name => do Engine.rows (← Run.ofResult (context.binding name))
  | .sequence members => M.memberRows context .empty members
  | .navigate step input =>
    if mode.isColumnar then do
      return (← M.plans.stepFrame step (M.frame input context) context).toRows
    else do
      let operand ← M.plans.stepOperand step context
      let rows ← M.rows input context
      M.plans.stepRows step operand rows context
  | .staticCall name arguments => M.plans.callRows name arguments mode context
  | .flwor pipeline result => do
    let tuples ← M.feedRows context pipeline
    M.plans.projectedRows result context tuples
  | operation => Run.fail (.noDistributedForm operation.name)

/-- The columnar form of an operation. -/
def operationFrame (context : Context) : Operation → Engine (Frame Item)
  | .compute (.builtin b arguments) => M.plans.sourceFrame b arguments context
  | .varRef name => do
    match ← Run.ofResult (context.binding name) with
    | .columns frame => return frame
    | value => Run.fail (.notColumnarValue name value.mode)
  | .navigate step input => M.plans.stepFrame step (M.frame input context) context
  | .staticCall name arguments => M.plans.callFrame name arguments context
  | operation => Run.fail (.noColumnarForm operation.name)

/-! ## Clauses -/

/-- The tuples for a tuple and the items of its source, of which some were bound before. -/
def bound (v : ForVariables) (allowingEmpty : Bool) (tuple : Tuple) : Nat → Trace Item → Trace Tuple
  | index, .done => if index = 0 ∧ allowingEmpty then .one (v.bind tuple .empty 0) else .done
  | _, .failed f => .failed f
  | index, .item i rest =>
    .item (v.bind tuple (.single i) (index + 1)) (bound v allowingEmpty tuple (index + 1) rest)

/-- All tuples of a trace, each with what a function gives for it. -/
def gathered {α : Type} (f : Tuple → Engine α) (env : Environment) (tuples : Trace Tuple) :
    Except Failure (List α) :=
  (tuples.bind fun tuple => .attempt ((f tuple).result env) .one).result

/-- What pulling a clause on the host gives. -/
def clauseItems (env : Environment) (context : Context) (position : SourcePosition)
    (before : Pipeline) : ClauseOperation → Trace Tuple
  | .forEach name place allowingEmpty source =>
    (M.feed env context before).bind fun tuple =>
      bound ⟨name, place⟩ allowingEmpty tuple 0 (M.items env (tuple.scope context) source).ahead
  | .letBe name value =>
    (M.feed env context before).bind fun tuple =>
      .attempt ((M.plans.value value (tuple.scope context)).result env) fun v =>
        .one (tuple.bind name v)
  | .keepWhere condition =>
    (M.feed env context before).bind fun tuple =>
      .attempt ((M.plans.truth condition (tuple.scope context)).result env) fun kept =>
        if kept then .one tuple else .done
  | .orderBy keys =>
    .attempt (gathered (M.plans.keyedTuple keys context) env (M.feed env context before))
      fun keyed => Engine.trace (do
        return (← Run.ofResult (sortRun (compareSortKeys keys) keyed)).map (·.2)) env
  | .groupBy keys =>
    .attempt (gathered (M.plans.groupedTuple keys position context) env (M.feed env context before))
      fun pairs => (PlanEvaluator.linearized keys position pairs).trace env
  | .count name =>
    (M.feed env context before).bindFrom (fun place tuple => .one (countTuple name tuple place)) 1

/-- The distributed form of a clause. -/
def clauseCollection (context : Context) (position : SourcePosition) (before : Pipeline) :
    ClauseOperation → Engine (Collection Tuple)
  | .forEach name place allowingEmpty source =>
    match before, source.mode.isParallel with
    | .start, true => do
      return ForVariables.sourceTuples ⟨name, place⟩ allowingEmpty (← M.rows source context)
    | before, _ => do
      let tuples ← M.feedRows context before
      PlanEvaluator.expandedRows ⟨name, place⟩ allowingEmpty (M.plans.evaluate source) context tuples
  | .letBe name value => do M.plans.boundRows name value context (← M.feedRows context before)
  | .keepWhere condition => do M.plans.keptRows condition context (← M.feedRows context before)
  | .orderBy keys => do M.plans.sortedRows keys context (← M.feedRows context before)
  | .groupBy keys => do M.plans.shuffled keys position context (← M.feedRows context before)
  | .count name => do return countedRows name (← M.feedRows context before)

end

end Meaning

/-! ## Meanings of bounded depth -/

/-- What pulling a node gives: `host` on the host, and the distributed form otherwise. -/
def Trace.pulled {α : Type} (env : Environment) (name : String) (mode : Mode) (position : SourcePosition)
    (host : Trace α) (rows : Engine (Collection α)) : Trace α :=
  match mode with
  | .unset => Trace.locate position (.failed (.raised (.of (.modeUnset name))))
  | .host => host.locate position
  | .rows | .columns => Engine.trace (do Engine.materialize (← rows) position) env

/-- The distributed form of a node, if it has one in its mode. -/
def Run.distributed {α : Type} (name : String) (mode : Mode) (position : SourcePosition)
    (rows : Engine (Collection α)) : Engine (Collection α) :=
  if !mode.isParallel then Run.locate (Run.fail (.notDistributed name mode)) position
  else rows.locate position

/-- The columnar form of a node, if it has one in its mode. -/
def Run.columnar (name : String) (mode : Mode) (position : SourcePosition)
    (frame : Engine (Frame Item)) : Engine (Frame Item) :=
  if !mode.isColumnar then Run.locate (Run.fail (.notColumnar name mode)) position
  else frame.locate position

/-- What nodes yield by themselves, whatever their modes. -/
structure NodeMeaning where
  /-- What pulling an operation on the host gives. -/
  items : Environment → Context → SourcePosition → Operation → Trace Item
  rows : Mode → Context → Operation → Engine (Collection Item)
  frame : Context → Operation → Engine (Frame Item)
  /-- What pulling a clause over a chain of clauses on the host gives. -/
  clause : Environment → Context → SourcePosition → Pipeline → ClauseOperation → Trace Tuple
  clauseRows : Context → SourcePosition → Pipeline → ClauseOperation → Engine (Collection Tuple)

namespace NodeMeaning

/-- The meaning of plans whose nodes yield this. -/
def driven (N : NodeMeaning) : Meaning where
  items env context
    | .mk mode position operation =>
      .pulled env operation.name mode position (N.items env context position operation)
        (Run.distributed operation.name mode position (N.rows mode context operation))
  rows
    | .mk mode position operation, context =>
      Run.distributed operation.name mode position (N.rows mode context operation)
  frame
    | .mk mode position operation, context =>
      Run.columnar operation.name mode position (N.frame context operation)
  clause env context mode position operation before :=
    .pulled env operation.name mode position (N.clause env context position before operation)
      (Run.distributed operation.name mode position (N.clauseRows context position before operation))
  clauseRows mode position operation before context :=
    Run.distributed operation.name mode position (N.clauseRows context position before operation)

/-- Nodes that are exhausted at once. -/
def giveUp : NodeMeaning where
  items _ _ _ _ := .failed .exhausted
  rows _ _ _ := Run.exhausted
  frame _ _ := Run.exhausted
  clause _ _ _ _ _ := .failed .exhausted
  clauseRows _ _ _ _ := Run.exhausted

/-- Nodes over a meaning of everything below them. -/
def above (M : Meaning) : NodeMeaning :=
  ⟨M.operationItems, M.operationRows, M.operationFrame, M.clauseItems, M.clauseCollection⟩

/-- Nodes over at most `depth` levels of nodes. -/
def ofDepth : Nat → NodeMeaning
  | 0 => giveUp
  | depth + 1 => above (ofDepth depth).driven

end NodeMeaning

/-- The meaning of everything that is at most `depth` nodes deep. -/
def Meaning.ofDepth (depth : Nat) : Meaning := (NodeMeaning.ofDepth depth).driven

end HybridQuery
