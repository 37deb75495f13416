import HybridQuery.Evaluation.Protocol

/-!
# Evaluators

What a node needs of the plans and cursors below it. A plan is evaluated as a whole, each time on a
fresh cursor, so that it can be evaluated any number of times; a cursor is driven step by step.

* `PlanEvaluator`: the ways to evaluate a plan. `PlanEvaluator.value` and
  `PlanEvaluator.optionalItem` are made from them.
* `Evaluator`: the rules of cursors. `Evaluator.plans` evaluates plans by them.
-/

namespace HybridQuery

/-- The fault of a sequence where a single item belongs. -/
def Fault.notSingle (what : String) (count : Nat) : Fault :=
  .typeMismatch s!"{what} must be a single item, found a sequence of {count}"

/-- At most one item; `what` names it in the fault of several, which is blamed on a position. -/
def Sequence.optional (items : Sequence) (what : String) (position : SourcePosition) :
    EngineResult (Option Item) :=
  match items with
  | [] => .ok none
  | [i] => .ok (some i)
  | items => EngineResult.locate (.fail (.notSingle what items.length)) position

/-- A value in the representation that fits a mode. -/
def Engine.valueIn (mode : Mode) (items : Engine Sequence) (rows : Engine (Collection Item))
    (frame : Engine (Frame Item)) : Engine (Value Item) :=
  match mode with
  | .columns => Value.columns <$> frame
  | .rows => Value.rows <$> rows
  | _ => Value.items <$> items

/-! ## Plans -/

/-- Ways to evaluate a plan. -/
structure PlanEvaluator where
  /-- The items. -/
  evaluate : Plan → Context → Engine Sequence
  /-- The distributed form. -/
  rows : Plan → Context → Engine (Collection Item)
  /-- The columnar form. -/
  planFrame : Plan → Context → Engine (Frame Item)
  /-- The first item on the host; no more is computed than it takes to hand it out. -/
  firstOnHost : Plan → Context → Engine Sequence
  /-- Whether there are no items on the host. -/
  emptyOnHost : Plan → Context → Engine Bool

namespace PlanEvaluator

variable (ev : PlanEvaluator)

/-- The value of a plan, in the representation that fits its mode. -/
def value (p : Plan) (context : Context) : Engine (Value Item) :=
  Engine.valueIn p.mode (ev.evaluate p context) (ev.rows p context) (ev.planFrame p context)

/-- At most one item of a plan; `what` names it in the fault of several. -/
def optionalItem (p : Plan) (context : Context) (what : String) : Engine (Option Item) := do
  Run.ofResult ((← ev.evaluate p context).optional what p.position)

/-- The truth value of a plan; what has none is blamed on the plan. -/
def truth (p : Plan) (context : Context) : Engine Bool := do
  let items ← ev.evaluate p context
  Run.ofResult (items.truth.locate p.position)

end PlanEvaluator

/-! ## Cursors -/

/-- How cursors are driven, and how many rounds a loop may take. -/
structure Evaluator where
  items : Rules Node Item
  tuples : Rules ClauseNode Tuple
  /-- The columnar form of a node. -/
  frame : Node → Context → Engine (Frame Item)
  limit : Nat

namespace Evaluator

variable (ev : Evaluator)

/-- Opens a cursor over items and hands out everything. -/
def openAndDrain (context : Context) : Step ItemCursor Sequence := do
  ev.items.openIn context
  ev.items.drain ev.limit

/-- Opens a cursor over items, hands out the first one, and closes it. -/
def openAndTake (context : Context) : Step ItemCursor Sequence := do
  ev.items.openIn context
  let first ← ev.items.next?
  Cursor.release
  return first.toList

/-- Opens a cursor over items, tells whether there is none, and closes it. -/
def openAndPeek (context : Context) : Step ItemCursor Bool := do
  ev.items.openIn context
  let isEmpty := !(← Step.read).hasNext
  Cursor.release
  return isEmpty

/-- The items that a closed cursor yields. -/
def itemsOf (c : ItemCursor) (context : Context) : Engine Sequence :=
  Step.eval c (ev.openAndDrain context)

/-- The distributed form of a closed cursor. -/
def rowsOf (c : ItemCursor) (context : Context) : Engine (Collection Item) :=
  Step.eval c (ev.items.collection context)

/-- The columnar form of a cursor. -/
def frameOf (c : ItemCursor) (context : Context) : Engine (Frame Item) :=
  if !c.mode.isColumnar then
    Run.locate (Run.fail (.notColumnar c.name c.mode)) c.position
  else (ev.frame c.node context).locate c.position

/-- The value of a closed cursor, in the representation that fits its mode. -/
def valueOf (c : ItemCursor) (context : Context) : Engine (Value Item) :=
  Engine.valueIn c.mode (ev.itemsOf c context) (ev.rowsOf c context) (ev.frameOf c context)

/-- At most one item of a closed cursor; `what` names it in the fault of several. -/
def optionalOf (c : ItemCursor) (context : Context) (what : String) : Engine (Option Item) := do
  Run.ofResult ((← ev.itemsOf c context).optional what c.position)

/-- Evaluates plans, each on a fresh cursor. -/
def plans : PlanEvaluator where
  evaluate p context := ev.itemsOf p.cursor context
  rows p context := ev.rowsOf p.cursor context
  planFrame p context := ev.frameOf p.cursor context
  firstOnHost p context := Step.eval p.cursor (ev.openAndTake context)
  emptyOnHost p context := Step.eval p.cursor (ev.openAndPeek context)

end Evaluator
end HybridQuery
