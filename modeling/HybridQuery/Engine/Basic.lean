import HybridQuery.Context.Chain
import HybridQuery.Function.Registry
import HybridQuery.Observe.Event
import HybridQuery.Observe.Metrics
import HybridQuery.Source.Files
import HybridQuery.Types.Catalogue

/-!
# The engine monad

Evaluation reads an environment that does not change, and it counts, logs and may fail. What was
counted and logged before a failure stays.

* `Run σ`: computations over a state `σ`. `Engine` has the record of a run as its state, `Step τ` a
  state `τ` of its own beside it.
* `Step.part`: runs a step on a part of the state; the part is put back also if the step fails.
* `Run.locate`: blames a position for a failure.
* `Engine.materialize`: pulls a whole collection to the host, as far as the cap allows. Every crossing
  is counted and logged.
* `Engine.rows`, `Engine.items`: a bound value in distributed form and on the host.
-/

namespace HybridQuery

/-! ## Environment, record and failure -/

/-- What an evaluation reads. -/
structure Environment where
  /-- Partitions of a source that does not say otherwise. -/
  defaultPartitions : Nat
  /-- Most items that may be pulled to the host at once. -/
  materializationCap : Option Nat
  catalogue : Catalogue
  files : Files
  /-- Least severity that is logged. -/
  minimum : Severity
  /-- The declared functions. -/
  functions : Registry

/-- What a run leaves behind. -/
structure RunRecord where
  metrics : Metrics
  log : List LogRecord
  /-- Paths that were looked at. -/
  consulted : List String
  deriving Inhabited

/-- A record in which nothing is noted. -/
def RunRecord.empty : RunRecord := ⟨{}, [], []⟩

/-- Why a computation gives no value. -/
inductive Failure where
  | raised (error : EngineError)
  /-- The allowance of steps was used up. -/
  | exhausted
  deriving Repr, DecidableEq, Inhabited

/-- Blames a position for a failure. -/
def Failure.locate (f : Failure) (position : SourcePosition) : Failure :=
  match f with
  | raised error => raised (error.locate position)
  | exhausted => exhausted

/-! ## Computations -/

/-- A computation over a state. -/
abbrev Run (σ α : Type) := ReaderT Environment (EStateM Failure σ) α

/-- A computation of the engine. -/
abbrev Engine (α : Type) := Run RunRecord α

/-- A computation of the engine with a state of its own. -/
abbrev Step (τ α : Type) := Run (τ × RunRecord) α

namespace Run

variable {σ α : Type}

/-- Fails with an error. -/
def raise (error : EngineError) : Run σ α := fun _ s => .error (.raised error) s

/-- Fails with a fault that has no position yet. -/
def fail (fault : Fault) : Run σ α := raise (.of fault)

/-- Gives up because the allowance of steps is used up. -/
def exhausted : Run σ α := fun _ s => .error .exhausted s

/-- The value of a result. -/
def ofResult : EngineResult α → Run σ α
  | .ok a => pure a
  | .error error => raise error

/-- Blames a position for a failure. -/
def locate (x : Run σ α) (position : SourcePosition) : Run σ α := fun env s =>
  match x env s with
  | .ok a s => .ok a s
  | .error f s => .error (f.locate position) s

/-- The environment. -/
def environment : Run σ Environment := fun env s => .ok env s

end Run

namespace Engine

/-- Counts. -/
def count (change : Metrics → Metrics) : Engine Unit := fun _ r =>
  .ok () { r with metrics := change r.metrics }

/-- Logs a record, if its severity is logged. -/
def logRecord (record : LogRecord) : Engine Unit := fun env r =>
  .ok () (if record.severity.reaches env.minimum then { r with log := r.log ++ [record] } else r)

/-- Logs an event. -/
def log (event : Event) (fields : List LogField) : Engine Unit := logRecord (event.record fields)

/-- Notes that a path is looked at. -/
def consult (path : String) : Engine Unit := fun _ r =>
  .ok () (if r.consulted.contains path then r else { r with consulted := r.consulted ++ [path] })

/-- Gives the outcome of a computation as a value. -/
def outcome {α : Type} (x : Engine α) : Engine (Except Failure α) := fun env r =>
  match x env r with
  | .ok a r => .ok (.ok a) r
  | .error f r => .ok (.error f) r

end Engine

namespace Step

variable {τ υ α : Type}

/-- A computation that leaves the state alone. -/
def lift (x : Engine α) : Step τ α := fun env (t, r) =>
  match x env r with
  | .ok a r => .ok a (t, r)
  | .error f r => .error f (t, r)

/-- The state. -/
def read : Step τ τ := fun _ (t, r) => .ok t (t, r)

/-- Sets the state. -/
def write (t : τ) : Step τ Unit := fun _ (_, r) => .ok () (t, r)

/-- Runs a step on a part of the state and gives the part as it is then; the whole is rebuilt from it
also if the step fails. -/
def part (whole : υ → τ) (u : υ) (x : Step υ α) : Step τ (α × υ) := fun env (_, r) =>
  match x env (u, r) with
  | .ok a (u, r) => .ok (a, u) (whole u, r)
  | .error f (u, r) => .error f (whole u, r)

/-- Runs a step from a state; gives its outcome and the state it ends in. -/
def runFrom (t : τ) (x : Step τ α) : Engine (Except Failure α × τ) := fun env r =>
  match x env (t, r) with
  | .ok a (t, r) => .ok (.ok a, t) r
  | .error f (t, r) => .ok (.error f, t) r

/-- Runs a step from a state and drops the state it ends in. -/
def eval (t : τ) (x : Step τ α) : Engine α := fun env r =>
  match x env (t, r) with
  | .ok a (_, r) => .ok a r
  | .error f (_, r) => .error f r

end Step

/-! ## The boundary between distributed and host -/

/-- Bound of the sizes that a machine word holds. -/
def wordBound : Nat := Power.two 64

/-- The records that a cap lets through; one more than the cap is looked at to tell whether there are
too many. -/
def Collection.capped {α : Type} (c : Collection α) : Option Nat → EngineResult (List α)
  | none => .ok c.records
  | some cap =>
    let records := c.take ((cap + 1) % wordBound)
    if records.length > cap then .fail (.materializationLimit cap) else .ok records

namespace Engine

/-- Pulls a collection to the host. -/
def materialize {α : Type} (c : Collection α) (position : SourcePosition) : Engine (List α) := do
  let env ← Run.environment
  let records ← Run.ofResult ((c.capped env.materializationCap).locate position)
  count (·.materialized records.length)
  log .collectionMaterialized
    [("items", toString records.length), ("partitions", toString c.numPartitions),
     ("position", position.text)]
  return records

/-- A bound value in distributed form; items on the host are distributed first. -/
def rows : Value Item → Engine (Collection Item)
  | .items items => do return .parallelize items (← Run.environment).defaultPartitions
  | .rows rows => pure rows
  | .columns frame => pure frame.toRows

/-- A bound value on the host. -/
def items (value : Value Item) (position : SourcePosition) : Engine Sequence :=
  match value with
  | .items items => pure items
  | .rows rows => materialize rows position
  | .columns frame => materialize frame.toRows position

end Engine
end HybridQuery
