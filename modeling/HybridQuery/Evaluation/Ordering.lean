import HybridQuery.Evaluation.Clauses

/-!
# `order by`

Tuples are ordered by their keys, the first key first; equal tuples keep their order. The empty
sequence stands before or after every item, as each key says.

* `compareSortKeys`: the order of keys.
* `Evaluator.orderedTuples`, `Evaluator.orderRows`: the ordered tuples on the host and distributed.
-/

namespace HybridQuery

/-- A key to order by is no atomic. -/
def Fault.orderKeyNotAtomic (item : Item) : Fault :=
  .typeMismatch s!"Order key must be an atomic, found {item.typeName}"

/-- What a tuple is ordered by: for each key an atomic or nothing. -/
abbrev SortKey := List (Option Item)

/-- Where the empty sequence stands relative to an item. -/
def EmptyOrder.emptyFirst : EmptyOrder → Ordering
  | least => .lt
  | greatest => .gt

/-- The order of two components of a key, before its direction. -/
def compareComponents (key : OrderKey Plan) : Option Item → Option Item → EngineResult Ordering
  | none, none => .ok .eq
  | none, some _ => .ok key.empty.emptyFirst
  | some _, none => .ok key.empty.emptyFirst.swap
  | some a, some b => (Item.compare a b).locate key.expression.position

/-- The order of keys: the first components that differ decide. -/
def compareSortKeys : List (OrderKey Plan) → SortKey → SortKey → EngineResult Ordering
  | key :: keys, a :: as, b :: bs => do
    let ordering ← compareComponents key a b
    let ordering := if key.descending then ordering.swap else ordering
    if ordering == .eq then compareSortKeys keys as bs else return ordering
  | _, _, _ => .ok .eq

namespace PlanEvaluator

variable (ev : PlanEvaluator)

/-- A component of the key of a tuple. -/
def sortComponent (key : OrderKey Plan) (scope : Context) : Engine (Option Item) := do
  match ← ev.optionalItem key.expression scope "Order key" with
  | none => return none
  | some i =>
    if i.isAtomic then return some i
    else Run.locate (Run.fail (.orderKeyNotAtomic i)) key.expression.position

/-- The key of a tuple. -/
def sortKey (keys : List (OrderKey Plan)) (context : Context) (tuple : Tuple) : Engine SortKey :=
  let scope := tuple.scope context
  keys.mapM fun key => ev.sortComponent key scope

/-- A tuple with its key. -/
def keyedTuple (keys : List (OrderKey Plan)) (context : Context) (tuple : Tuple) :
    Engine (SortKey × Tuple) := do
  return (← ev.sortKey keys context tuple, tuple)

/-- Distributed tuples, ordered. -/
def sortedRows (keys : List (OrderKey Plan)) (context : Context) (tuples : Collection Tuple) :
    Engine (Collection Tuple) := do
  let keyed ← tuples.mapM (ev.keyedTuple keys context)
  let sorted ← Run.ofResult (keyed.sortKeyed (compareSortKeys keys))
  Engine.count Metrics.shuffled
  return sorted

end PlanEvaluator

namespace Evaluator

variable (ev : Evaluator)

/-- All tuples of the clauses before, ordered on the host. -/
def orderedTuples (keys : List (OrderKey Plan)) (context : Context) :
    Step Feed (List Tuple) := do
  let keyed ← ev.gatherAll (ev.plans.keyedTuple keys context) context
  let sorted ← Run.ofResult (sortRun (compareSortKeys keys) keyed)
  return sorted.map (·.2)

/-- The distributed form of an `order by` clause. -/
def orderRows (keys : List (OrderKey Plan)) (context : Context) :
    Step Feed (Collection Tuple) := do
  let tuples ← ev.feedRows context
  Step.lift (ev.plans.sortedRows keys context tuples)

end Evaluator
end HybridQuery
