import HybridQuery.Evaluation.Computation

/-!
# Calls of functions

A call on the host opens a fresh cursor of the function's body and hands its items out one by one,
checked against the return type. The body is closed as soon as it is through.

* `PlanEvaluator.namedCall`, `PlanEvaluator.computedCall`: a call after its checks.
* `PlanEvaluator.callRows`, `PlanEvaluator.callFrame`: the distributed and the columnar form.
* `Evaluator.startCall`, `Evaluator.callNext`: the state of a call, and its next item.
-/

namespace HybridQuery

/-! ## Faults -/

namespace Fault

/-- A partial application was asked for a distributed form. -/
def partialNotDistributed (f : FunctionItem) : Fault :=
  .flow s!"Partial application of {f.identifier} has no distributed form"

/-- What is called is no single function. -/
def notFunction (found : String) : Fault :=
  .typeMismatch s!"Dynamic call requires a single function item, found {found}"

end Fault

namespace SequenceType

/-- Checks, item by item, that a result is not longer than the type admits. -/
def checkProduced (type : SequenceType) (produced : Nat) : TypeResult Unit :=
  match type.occurrence.max with
  | some greatest =>
    if produced > greatest || type.isEmpty then .error (.cardinality type.text produced) else .ok ()
  | none => .ok ()

/-- Takes the last of a number of items produced so far to the type of a result. -/
def promoteProduced (type : SequenceType) (c : Catalogue) (produced : Nat) (i : Item) :
    TypeResult Item :=
  if type.isUnconstrained then .ok i
  else do
    type.checkProduced produced
    c.promote i type.itemType

end SequenceType

namespace PlanEvaluator

variable (ev : PlanEvaluator)

/-! ## Functions and arguments -/

/-- The values of arguments; one that is left out stays so. -/
def argumentValues (context : Context) :
    List (Option Plan) → Engine (List (Option (Value Item)))
  | [] => return []
  | none :: rest => return none :: (← argumentValues context rest)
  | some p :: rest => do
    let value ← ev.value p context
    return some value :: (← argumentValues context rest)

/-- Checks a call of a function. -/
def invocation (f : FunctionItem) (arguments : List (Option (Value Item))) : Engine Invocation := do
  Run.ofResult (Invocation.of f (← Run.environment).catalogue arguments)

/-- What a computed function must be: a single function. -/
def calledFunction (items : Sequence) : EngineResult FunctionItem :=
  match items with
  | [.function f] => .ok f
  | items =>
    .fail (.notFunction ((items.getLast?.map Item.typeName).getD "an empty sequence"))

/-- A call of a named function, after its checks. -/
def namedCall (name : String) (arguments : List (Option Plan)) (context : Context) :
    Engine (FunctionItem × Invocation) := do
  let f ← namedFunction name arguments.length
  let values ← ev.argumentValues context arguments
  return (f, ← invocation f values)

/-- A call of a computed function, after its checks. Failures of these are blamed on the call. -/
def computedCall (function : Plan) (arguments : List (Option Plan)) (position : SourcePosition)
    (context : Context) : Engine (FunctionItem × Invocation) := do
  let items ← ev.evaluate function context
  let f ← Run.ofResult ((calledFunction items).locate position)
  let values ← ev.argumentValues context arguments
  return (f, ← (invocation f values).locate position)

/-! ## Distributed and columnar forms -/

/-- A call whose arguments are all given: the function and the context of its body. -/
def fullCall (name : String) (arguments : List (Option Plan)) (context : Context) :
    Engine (FunctionItem × Context) := do
  match ← ev.namedCall name arguments context with
  | (f, .fully context) => return (f, context)
  | (f, .partially _) => Run.fail (.partialNotDistributed f)

/-- The distributed form of a body, through the columnar one if the call is columnar and the body has
one. -/
def bodyRows (mode : Mode) (f : FunctionItem) (context : Context) : Engine (Collection Item) := do
  if mode.isColumnar && f.body.mode.isColumnar then
    return (← ev.planFrame f.body context).toRows
  else ev.rows f.body context

/-- Takes a distributed result to its type. -/
def promoteRows (type : SequenceType) (rows : Collection Item) : Engine (Collection Item) := do
  if type.isUnconstrained then return rows
  else
    let c := (← Run.environment).catalogue
    Run.ofResult (TypeResult.toEngine do
      type.checkCount rows.count
      rows.mapM fun i => c.promote i type.itemType)

/-- The distributed form of a call of a named function. -/
def callRows (name : String) (arguments : List (Option Plan)) (mode : Mode) (context : Context) :
    Engine (Collection Item) := do
  let (f, inner) ← ev.fullCall name arguments context
  promoteRows f.signature.returnType (← ev.bodyRows mode f inner)

/-- The columnar form of a call of a named function: that of its body. -/
def callFrame (name : String) (arguments : List (Option Plan)) (context : Context) :
    Engine (Frame Item) := do
  let (f, inner) ← ev.fullCall name arguments context
  ev.planFrame f.body inner

end PlanEvaluator

namespace Evaluator

variable (ev : Evaluator)

/-! ## On the host -/

/-- Opens the body of a function. -/
def openBody (f : FunctionItem) (context : Context) : Engine Call := do
  let body ← Step.eval f.body.cursor do
    ev.items.openIn context
    Step.read
  Engine.count Metrics.bodyOpened
  return .running body f.signature.returnType 0

/-- The state of a call that passed its checks. -/
def startCall : FunctionItem × Invocation → Engine Call
  | (_, .partially left) => pure (.partially (some (.function left)))
  | (f, .fully context) => ev.openBody f context

/-- Closes a body that is through. -/
def closeBody : Step ItemCursor Unit := do
  Cursor.release
  Step.lift (Engine.count (·.addBodiesClosed 1))

/-- The next item of a body, before it is checked; the body is closed once it is through. -/
def bodyNext : Step ItemCursor (Option Item) := do
  match ← ev.items.next? with
  | some i => return some i
  | none =>
    closeBody
    return none

/-- The next item of a call. -/
def callNext : Step Call (Option Item) := do
  match ← Step.read with
  | .idle => return none
  | .partially result =>
    Step.write (.partially none)
    return result
  | .running body type produced =>
    if !body.isOpen then return none
    else
      let (next, body) ← Step.part (.running · type produced) body ev.bodyNext
      match next with
      | none => do
        Run.ofResult (type.checkCount produced).toEngine
        return none
      | some i =>
        let produced := produced + 1
        Step.write (.running body type produced)
        let c := (← Run.environment).catalogue
        return some (← Run.ofResult (type.promoteProduced c produced i).toEngine)

end Evaluator
end HybridQuery
