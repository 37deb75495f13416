import HybridQuery.Evaluation.Driving
import HybridQuery.Plan.Compile
import HybridQuery.Session.Config
import HybridQuery.Syntax.Explain

/-!
# Sessions

A session is started from a configuration and answers any number of queries. It keeps the declared
types, the counters and the log.

* `Session.start`: declares the configured types.
* `Session.evaluate`: analyses, compiles and evaluates a module.
* `Session.explain`: analyses a module and shows its plan.
* `Session.shutdown`: logs the final counters.
-/

namespace HybridQuery

/-- The fault of an evaluation that takes more steps than are allowed. -/
def Fault.allowanceUsed : Fault := .resource "The allowance of steps is used up"

/-- The error of a failure. -/
def Failure.toError : Failure → EngineError
  | raised error => error
  | exhausted => .of .allowanceUsed

/-- A running engine. -/
structure Session where
  /-- Tells sessions apart in their logs. -/
  id : String
  config : EngineConfig
  catalogue : Catalogue
  record : RunRecord

/-- What starting a session leaves behind, and the session if it starts. -/
structure SessionStart where
  record : RunRecord
  session : EngineResult Session

namespace Session

/-- Number of workers; on this engine a single one stands for each number that is not set. -/
def workers (c : EngineConfig) : Nat := max c.workerThreads 1

/-- What evaluations of a session read. -/
def environmentOf (c : EngineConfig) (catalogue : Catalogue) (files : Files) : Environment :=
  { defaultPartitions := c.defaultPartitions
    materializationCap := c.materializationCap
    catalogue := catalogue
    files := files
    minimum := c.severity
    functions := [] }

/-- What evaluations of the session read. -/
def environment (s : Session) (files : Files) : Environment :=
  environmentOf s.config s.catalogue files

/-- Runs a computation on the record of the session. -/
def run {α : Type} (s : Session) (files : Files) (x : Engine α) : EngineResult α × Session :=
  match x (s.environment files) s.record with
  | .ok a record => (.ok a, { s with record := record })
  | .error f record => (.error f.toError, { s with record := record })

/-- Runs a computation that reads no files for what it records. -/
def note (s : Session) (x : Engine Unit) : Session := (s.run .empty x).2

/-! ## Starting -/

/-- Logs the start and declares the configured types. -/
def bringUp (c : EngineConfig) (id : String) : Engine Catalogue := do
  Engine.log .sessionStart [("session_id", id)]
  let catalogue ← Run.ofResult (Catalogue.empty.declareAll c.typeDeclarations).toEngine
  Engine.log .typesDeclared [("count", toString catalogue.declarations.length)]
  Engine.log .sessionReady
    [("default_partitions", toString c.defaultPartitions), ("session_id", id),
     ("worker_threads", toString (workers c))]
  return catalogue

/-- Starts a session. -/
def start (c : EngineConfig) (id : String) : SessionStart :=
  match c.check with
  | .error fault => ⟨.empty, .fail fault.toFault⟩
  | .ok () =>
    match bringUp c id (environmentOf c .empty .empty) .empty with
    | .ok catalogue record => ⟨record, .ok ⟨id, c, catalogue, record⟩⟩
    | .error f record => ⟨record, .error f.toError⟩

/-! ## Queries -/

/-- Compiles an analysed module. -/
def compile (m : QueryModule) : Engine ModulePlan := do
  let env ← Run.environment
  Engine.logRecord (phaseBegun "COMPILE")
  match m.compile env.catalogue with
  | .ok plan =>
    Engine.logRecord (phaseEnded "COMPILE" .complete)
    return plan
  | .error e =>
    Engine.logRecord (phaseEnded "COMPILE" (.failed e.message))
    Run.raise e

/-- Evaluates a compiled module. -/
def evaluatePlan (plan : ModulePlan) : Engine Sequence := fun env =>
  Evaluator.full.plans.evaluate plan.body .root { env with functions := .ofPlans plan.functions }

/-- Compiles and evaluates a module, given what analysis made of it. -/
def answer (m : QueryModule) (analysed : EngineResult Unit) : Engine Sequence := do
  Run.ofResult analysed
  let mode ← Run.ofResult m.body.mode
  Engine.log .queryAnalysed [("mode", mode.text)]
  evaluatePlan (← compile m)

/-- Counts and logs how a query ends. -/
def settle (outcome : Except Failure Sequence) : Engine Sequence := do
  match outcome with
  | .ok items =>
    Engine.count Metrics.queryExecuted
    Engine.log .queryExecuted
      [unmeasured "duration_ms", ("items", toString items.length)]
    return items
  | .error f =>
    let e := f.toError
    Engine.count Metrics.queryRejected
    Engine.log .queryRejected
      [("code", e.code.text), unmeasured "duration_ms", ("message", e.message),
       ("position", (e.position.map SourcePosition.text).getD "")]
    Run.raise e

/-- Answers a query, given what analysis made of the module. -/
def query (m : QueryModule) (analysed : EngineResult Unit) : Engine Sequence := do
  Engine.log .queryReceived [("functions", toString m.functions.length)]
  settle (← Engine.outcome (answer m analysed))

/-- Analyses, compiles and evaluates a module. Also gives the module as analysis leaves it. -/
def evaluate (s : Session) (files : Files) (m : QueryModule) :
    EngineResult Sequence × QueryModule × Session :=
  let (m, analysed) := m.analyse
  let (result, s) := s.run files (query m analysed)
  (result, m, s)

/-- Logs an explained plan. -/
def logExplained (plan : ExplainPlan) : Engine Unit := do
  Engine.log .explainBegin []
  Engine.log .explainComplete [("accepted", if plan.isAccepted then "true" else "false")]

/-- Analyses a module and shows its plan. Also gives the module as analysis leaves it. -/
def explain (s : Session) (m : QueryModule) : ExplainPlan × QueryModule × Session :=
  let (m, plan) := ExplainPlan.ofModule m
  (plan, m, s.note (logExplained plan))

/-- Logs the final counters. -/
def shutdown (s : Session) : Session :=
  s.note (Engine.log .sessionShutdown
    [("metrics", s.record.metrics.toJson.compact), ("session_id", s.id), unmeasured "uptime_ms"])

end Session
end HybridQuery
