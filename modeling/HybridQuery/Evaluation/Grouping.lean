import HybridQuery.Evaluation.Clauses

/-!
# `group by`

Tuples of equal keys become one tuple, in which every variable that is no key is bound to all its
values in the group. On the host the groups follow the first tuple of each; distributed only their set
is promised.

* `PlanEvaluator.groupedTuple`: a tuple with its key.
* `PlanEvaluator.linearize`: the tuple of a group.
* `Evaluator.groupedTuples`, `Evaluator.groupRows`: the groups on the host and distributed.
-/

namespace HybridQuery

/-- A component of a key: nothing or a single atomic. -/
def groupingComponent (name : String) : Sequence → EngineResult (Option Item)
  | [] => .ok none
  | [i] => if i.isAtomic then .ok (some i) else .fail (.nonGroupable name i.typeName)
  | items => .fail (.nonGroupable name s!"a sequence of {items.length} items")

/-- The value of a variable that is a key. -/
def keyValue (component : Option Item) : Value Item := .items component.toList

namespace PlanEvaluator

variable (ev : PlanEvaluator)

/-- The items of a key: of its expression, which sees the keys before it, or of a variable of the
tuple. -/
def groupingItems (key : GroupKey Plan) (position : SourcePosition) (context : Context)
    (tuple keyed : Tuple) : Engine Sequence :=
  match key.expression with
  | some e => ev.evaluate e (keyed.scope context)
  | none =>
    match tuple.get? key.variableName with
    | some value => Engine.items value position
    | none => Run.fail (.undefinedVariable key.variableName)

/-- The key of a tuple, and the tuple with the variables of the keys bound; `keyed` and `done` are
those of the keys before. -/
def groupedFrom (position : SourcePosition) (context : Context) (tuple : Tuple) :
    List (GroupKey Plan) → Tuple → GroupingKey → Engine (GroupingKey × Tuple)
  | [], keyed, done => return (done, keyed)
  | key :: rest, keyed, done => do
    let items ← ev.groupingItems key position context tuple keyed
    let component ← Run.ofResult ((groupingComponent key.variableName items).locate position)
    groupedFrom position context tuple rest (keyed.bind key.variableName (keyValue component))
      (done ++ [component])

/-- The key of a tuple, and the tuple with the variables of the keys bound. -/
def groupedTuple (keys : List (GroupKey Plan)) (position : SourcePosition) (context : Context)
    (tuple : Tuple) : Engine (GroupingKey × Tuple) :=
  ev.groupedFrom position context tuple keys tuple []

/-- All values of a variable in a group. -/
def groupValues (position : SourcePosition) (name : String) (group : List Tuple) :
    Engine Sequence := do
  let values ← group.mapM fun tuple =>
    match tuple.get? name with
    | some value => Engine.items value position
    | none => pure []
  return values.flatten

/-- Binds variables to all their values in a group. -/
def bindGroupValues (position : SourcePosition) (group : List Tuple) :
    List String → Tuple → Engine Tuple
  | [], tuple => return tuple
  | name :: rest, tuple => do
    let items ← groupValues position name group
    bindGroupValues position group rest (tuple.bind name (.items items))

/-- The tuple of a group: first the variables that are no keys, then the keys. -/
def linearize (keys : List (GroupKey Plan)) (position : SourcePosition)
    (group : GroupingKey × List Tuple) : Engine Tuple := do
  match group.2 with
  | [] => return .empty
  | first :: _ =>
    let others := first.names.filter fun name => !keys.any (·.variableName == name)
    let tuple ← bindGroupValues position group.2 others .empty
    return (keys.zip group.1).foldl (fun t p => t.bind p.1.variableName (keyValue p.2)) tuple

/-- The tuples of the groups of keyed tuples. -/
def linearized (keys : List (GroupKey Plan)) (position : SourcePosition)
    (pairs : List (GroupingKey × Tuple)) : Engine (List Tuple) :=
  (Collection.groupPairs GroupingKey.same pairs).mapM (linearize keys position)

/-- The groups of distributed tuples. -/
def shuffled (keys : List (GroupKey Plan)) (position : SourcePosition) (context : Context)
    (tuples : Collection Tuple) : Engine (Collection Tuple) := do
  Engine.log .shuffleBegin
    [("partitions", toString tuples.numPartitions), ("position", position.text)]
  let pairs ← tuples.mapM (ev.groupedTuple keys position context)
  let groups := pairs.groupByKey GroupingKey.same GroupingKey.bucket
  Engine.count Metrics.shuffled
  Engine.log .shuffleComplete
    [unmeasured "duration_ms", ("groups", toString groups.count), ("position", position.text)]
  groups.mapM (linearize keys position)

end PlanEvaluator

namespace Evaluator

variable (ev : Evaluator)

/-- The groups of all tuples of the clauses before, on the host. -/
def groupedTuples (keys : List (GroupKey Plan)) (position : SourcePosition) (context : Context) :
    Step Feed (List Tuple) := do
  let pairs ← ev.gatherAll (ev.plans.groupedTuple keys position context) context
  Step.lift (PlanEvaluator.linearized keys position pairs)

/-- The distributed form of a `group by` clause. -/
def groupRows (keys : List (GroupKey Plan)) (position : SourcePosition) (context : Context) :
    Step Feed (Collection Tuple) := do
  let tuples ← ev.feedRows context
  Step.lift (ev.plans.shuffled keys position context tuples)

end Evaluator
end HybridQuery
