import HybridQuery.Evaluation.Computation

/-!
# Navigation

Look-ups, unboxing and predicates work item by item on an input. On the host they follow the input as
it is pulled; distributed they are applied to the items of every partition. A look-up in a columnar
input projects a column.

* `PlanEvaluator.stepOperand`: the operand of a step, evaluated once.
* `PlanEvaluator.applyStep`: what a step gives for an item at a place.
* `Evaluator.startWalk`, `Evaluator.walkOn`: the steps of an input that is pulled.
-/

namespace HybridQuery

/-! ## Faults -/

namespace Fault

/-- A key to look up is no atomic other than null. -/
def lookupKeyNotAtomic (item : Item) : Fault :=
  .typeMismatch s!"Object lookup key must be an atomic, found {item.typeName}"

/-- An index is no integer. -/
def indexNotInteger (item : Item) : Fault :=
  .typeMismatch s!"Array index must be an integer, found {item.typeName}"

/-- A key to look up in a columnar input is missing. -/
def lookupKeyMissing : Fault := .invalidArgument "Object lookup key is an empty sequence"

end Fault

namespace PlanEvaluator

variable (ev : PlanEvaluator)

/-! ## Steps -/

/-- The key to look up. -/
def lookupKey (p : Plan) (context : Context) : Engine (Option String) := do
  match ← ev.optionalItem p context "Object lookup key" with
  | none => return none
  | some i =>
    match i.keyText? with
    | some key => return some key
    | none => Run.fail (.lookupKeyNotAtomic i)

/-- The index to look up, counted from one. -/
def lookupIndex (p : Plan) (context : Context) : Engine (Option Int64) := do
  match ← ev.optionalItem p context "Array index" with
  | none => return none
  | some (.integer n) => return some n
  | some i => Run.fail (.indexNotInteger i)

/-- The operand of a step. -/
def stepOperand (step : NavigationStep) (context : Context) : Engine StepOperand :=
  match step with
  | .objectLookup key => StepOperand.key <$> ev.lookupKey key context
  | .arrayLookup index => StepOperand.index <$> ev.lookupIndex index context
  | .arrayUnbox | .filter _ => pure .absent

/-- The member of an array at an index counted from one. -/
def memberAt (i : Item) (index : Int64) : Option Item :=
  if index ≥ 1 then i.members[(index.toInt - 1).toNat]? else none

/-- Whether a predicate keeps an item: a single number keeps the item at that place, everything else
goes by its truth value. -/
def keeps (predicate : Plan) (place : Nat) (i : Item) (context : Context) : Engine Bool := do
  let scope := context.withBinding contextItemName (.single i)
  match ← ev.evaluate predicate scope with
  | [r] =>
    if r.isNumeric then return r.same (.integer (Int64.ofNat place))
    else Run.ofResult (r.truth.locate predicate.position)
  | items => Run.ofResult (items.truth.locate predicate.position)

/-- What a step gives for an item at a place counted from one. -/
def applyStep (step : NavigationStep) (operand : StepOperand) (place : Nat) (i : Item)
    (context : Context) : Engine (List Item) :=
  match step, operand with
  | .objectLookup _, .key (some key) => pure (i.member? key).toList
  | .arrayLookup _, .index (some index) => pure (memberAt i index).toList
  | .arrayUnbox, _ => pure i.members
  | .filter predicate, _ => do
    return if ← ev.keeps predicate place i context then [i] else []
  | _, _ => pure []

/-- Whether a step looks at the place of an item. -/
def readsPlace : NavigationStep → Bool
  | .filter _ => true
  | _ => false

/-! ## Columnar and distributed forms -/

/-- The columnar form of a step over an input. -/
def stepFrame (step : NavigationStep) (input : Engine (Frame Item)) (context : Context) :
    Engine (Frame Item) := do
  match step, ← ev.stepOperand step context with
  | .objectLookup _, .key (some key) => return (← input).select key
  | .objectLookup _, _ => Run.fail .lookupKeyMissing
  | step, _ => Run.fail (.noColumnarForm step.name)

/-- The distributed form of a step over distributed items. -/
def stepRows (step : NavigationStep) (operand : StepOperand) (rows : Collection Item)
    (context : Context) : Engine (Collection Item) :=
  if readsPlace step then
    rows.zipWithIndex.flatMapM fun (i, index) => ev.applyStep step operand (index + 1) i context
  else rows.flatMapM fun i => ev.applyStep step operand 0 i context

end PlanEvaluator

namespace Evaluator

variable (ev : Evaluator)

/-- The distributed form of a navigation. -/
def navigateRows (step : NavigationStep) (mode : Mode) (context : Context) :
    Step ItemCursor (Collection Item) := do
  if mode.isColumnar then
    let input ← Step.read
    let frame ← Step.lift (ev.plans.stepFrame step (ev.frameOf input context) context)
    return frame.toRows
  else
    let operand ← Step.lift (ev.plans.stepOperand step context)
    let rows ← ev.items.collection context
    Step.lift (ev.plans.stepRows step operand rows context)

/-! ## On the host -/

/-- Opens the input of a navigation. -/
def startWalk (step : NavigationStep) (context : Context) : Step ItemCursor Walk := do
  let operand ← Step.lift (ev.plans.stepOperand step context)
  ev.items.openIn context
  return ⟨context, operand, [], 0⟩

/-- Takes input items until a step gives something. -/
def walkOn (step : NavigationStep) : Nat → Step (Walk × ItemCursor) (Option Item)
  | 0 => Run.exhausted
  | limit + 1 => do
    let (walk, input) ← Step.read
    match walk.buffer with
    | i :: rest =>
      Step.write ({ walk with buffer := rest }, input)
      return some i
    | [] =>
      let (next, input) ← Step.part (fun input => (walk, input)) input ev.items.next?
      match next with
      | none => return none
      | some i =>
        let walk := { walk with place := walk.place + 1 }
        Step.write (walk, input)
        let found ← Step.lift (ev.plans.applyStep step walk.operand walk.place i walk.context)
        Step.write ({ walk with buffer := found }, input)
        walkOn step limit

end Evaluator
end HybridQuery
