import HybridQuery.Engine.Ingestion
import HybridQuery.Evaluation.Evaluator
import HybridQuery.Item.Arithmetic
import HybridQuery.Item.Basic
import HybridQuery.Item.Cast

/-!
# Calls of built-in functions

Sources give distributed items. Aggregates and peeks work on the host, on the distributed or columnar
form of their argument if it has one. Constructors cast a string.

* `PlanEvaluator.sourceRows`, `PlanEvaluator.sourceFrame`: the distributed and the columnar form of a call.
* `PlanEvaluator.builtinItems`: the items of a call on the host.
-/

namespace HybridQuery

/-! ## Faults -/

namespace Fault

/-- A source location is no string. -/
def locationNotString (function found : String) : Fault :=
  .typeMismatch s!"{function} expects a string location, found {found}"

/-- A number of partitions is no positive integer. -/
def badPartitionCount (item : Item) : Fault :=
  .invalidArgument s!"Partition count must be a positive integer, found {item.text}"

/-- A function got something other than an array. -/
def sizeOfNonArray (item : Item) : Fault :=
  .typeMismatch s!"size expects an array, found {item.typeName}"

/-- A constructor got something that is neither a string nor of its type. -/
def notConstructible (function : String) (item : Item) : Fault :=
  .typeMismatch s!"{function} expects a string, found {item.typeName}"

/-- A component was asked of something that has none. -/
def noComponent (function : String) (item : Item) : Fault :=
  .typeMismatch s!"{function} is not defined for {item.typeName}"

/-- A built-in function has no form on the host. -/
def noHostForm (function : String) : Fault := .flow s!"{function} has no local form"

end Fault

namespace PlanEvaluator

variable (ev : PlanEvaluator) (b : Builtin) (arguments : List Plan) (context : Context)

/-! ## Arguments -/

/-- An argument that must be there. -/
def builtinArgument (index : Nat) : Engine Plan :=
  match arguments[index]? with
  | some p => pure p
  | none => Run.fail (.arity b.name (index + 1) arguments.length)

/-- The location of a source. -/
def sourceLocation : Engine String := do
  let p ← builtinArgument b arguments 0
  match ← ev.optionalItem p context "Source location" with
  | some (.string location) => return location
  | some i => Run.fail (.locationNotString b.name i.typeName)
  | none => Run.fail (.locationNotString b.name "an empty sequence")

/-- The number of partitions of a source. -/
def sourcePartitions : Engine Nat := do
  let default := (← Run.environment).defaultPartitions
  match arguments[1]? with
  | none => return default
  | some p =>
    match ← ev.optionalItem p context "Partition count" with
    | none => return default
    | some (.integer n) =>
      if n > 0 then return n.toInt.toNat else Run.fail (.badPartitionCount (.integer n))
    | some i => Run.fail (.badPartitionCount i)

/-- All items of the first argument. -/
def wholeInput : Engine Sequence := do
  ev.evaluate (← builtinArgument b arguments 0) context

/-- At most one item of the first argument. -/
def atomicInput : Engine (Option Item) := do
  ev.optionalItem (← builtinArgument b arguments 0) context b.name

/-! ## Sources -/

/-- The columnar form of a call. -/
def sourceFrame : Engine (Frame Item) := do
  match b with
  | .structuredJsonFile => Engine.jsonFrame (← ev.sourceLocation b arguments context)
  | b => Run.fail (.noColumnarForm b.name)

/-- Counts the records of a source. -/
def countRecords (rows : Collection Item) : Engine (Collection Item) := do
  Engine.count (·.ingested rows.count)
  return rows

/-- The distributed form of a call. -/
def sourceRows : Engine (Collection Item) := do
  match b with
  | .jsonFile =>
    let location ← ev.sourceLocation b arguments context
    countRecords (← Engine.jsonLines location (← ev.sourcePartitions arguments context))
  | .textFile =>
    let location ← ev.sourceLocation b arguments context
    let lines ← Engine.textLines location (← ev.sourcePartitions arguments context)
    countRecords (lines.map .string)
  | .structuredJsonFile =>
    let frame ← ev.sourceFrame b arguments context
    countRecords frame.toRows
  | .parallelize =>
    let items ← ev.wholeInput b arguments context
    return .parallelize items (← ev.sourcePartitions arguments context)
  | b => Run.fail (.noDistributedForm b.name)

/-! ## Peeks and aggregates -/

/-- The first item of the argument. -/
def firstItem : Engine Sequence := do
  let p ← builtinArgument b arguments 0
  if p.mode.isParallel then return (← ev.rows p context).take 1
  else ev.firstOnHost p context

/-- Whether the argument is empty. -/
def isEmptyInput : Engine Bool := do
  let p ← builtinArgument b arguments 0
  if p.mode.isParallel then return ((← ev.rows p context).take 1).isEmpty
  else ev.emptyOnHost p context

/-- The number of items of the argument. -/
def inputCount : Engine Nat := do
  let p ← builtinArgument b arguments 0
  match p.mode with
  | .columns => return (← ev.planFrame p context).count
  | .rows => return (← ev.rows p context).count
  | _ => return (← ev.evaluate p context).length

/-! ## Constructors and components -/

/-- The item of a type that a string stands for. -/
def construct (type : ItemType) : Engine Sequence := do
  match ← ev.atomicInput b arguments context with
  | none => return []
  | some (.string text) => return [← Run.ofResult (Item.cast text type).toEngine]
  | some i =>
    if i.typeName = type.name then return [i] else Run.fail (.notConstructible b.name i)

/-- The year of a date and time. -/
def yearOf (i : Item) : EngineResult Sequence :=
  match i with
  | .dateTime t => .ok [.integer (Int64.ofInt t.localDate.year)]
  | i => .fail (.noComponent b.name i)

/-- The offset of a time. -/
def timezoneOf (i : Item) : EngineResult Sequence :=
  match i with
  | .time t => .ok (t.offset.map fun offset => Item.duration ⟨offset * nanosPerSecond⟩).toList
  | i => .fail (.noComponent b.name i)

/-- A component of a point in time. -/
def component (read : Item → EngineResult Sequence) : Engine Sequence := do
  match ← ev.atomicInput b arguments context with
  | none => return []
  | some i => Run.ofResult (read i)

/-- The number of members of an array. -/
def arraySize : Engine Sequence := do
  match ← ev.optionalItem (← builtinArgument b arguments 0) context "size argument" with
  | none => return []
  | some (.array members) => return [.integer (Int64.ofNat members.length)]
  | some i => Run.fail (.sizeOfNonArray i)

/-! ## Calls -/

/-- The items of a source, pulled to the host at the position of its first argument. -/
def sourceItems : Engine Sequence := do
  let rows ← ev.sourceRows b arguments context
  Engine.materialize rows (← builtinArgument b arguments 0).position

/-- The items of a call on the host. -/
def builtinItems : Engine Sequence := do
  match b with
  | .jsonFile | .textFile | .structuredJsonFile | .parallelize =>
    ev.sourceItems b arguments context
  | .count => return [.integer (Int64.ofNat (← ev.inputCount b arguments context))]
  | .empty => return [.boolean (← ev.isEmptyInput b arguments context)]
  | .nonEmpty => return [.boolean (!(← ev.isEmptyInput b arguments context))]
  | .sum => return [← Run.ofResult (← ev.wholeInput b arguments context).sum]
  | .keys => return (← ev.wholeInput b arguments context).allKeys.map .string
  | .size => ev.arraySize b arguments context
  | .head => ev.firstItem b arguments context
  | .intersect => return [(← ev.wholeInput b arguments context).intersection]
  | .yearFromDateTime => ev.component b arguments context (yearOf b)
  | .timezoneFromTime => ev.component b arguments context (timezoneOf b)
  | b =>
    match b.constructs? with
    | some type => ev.construct b arguments context type
    | none => Run.fail (.noHostForm b.name)

end PlanEvaluator
end HybridQuery
