import HybridQuery.Json.Value

/-!
# Events and their records

An engine reports the life of a session and of its queries, and routine detail of evaluation. A phase is
reported when it begins and once more when it ends. A record is an event with a severity and named fields. It
prints as one line of JSON: the event, the severity, then the fields in the order of their names.

* `Severity.parse?`: the severity of a configured level, in any case.
* `LogRecord.line`: the line of a record.
* `Event`: what is reported.
-/

namespace HybridQuery

/-! ## Severities -/

/-- How much a record matters. -/
inductive Severity where
  | trace
  | info
  | warn
  | error
  | fatal
  deriving Repr, DecidableEq, Inhabited

namespace Severity

/-- Place among the severities, from the least. -/
def rank : Severity → Nat
  | trace => 0
  | info => 1
  | warn => 2
  | error => 3
  | fatal => 4

/-- The name of a severity in records. -/
def text : Severity → String
  | trace => "TRACE"
  | info => "INFO"
  | warn => "WARN"
  | error => "ERROR"
  | fatal => "FATAL"

/-- The names of severities in configurations. -/
def levels : List (String × Severity) :=
  [("trace", trace), ("info", info), ("warn", warn), ("error", error), ("fatal", fatal)]

/-- The severity of a level name; the case of its letters does not matter. -/
def parse? (level : String) : Option Severity := levels.lookup (level.map Char.toLower)

/-- Whether a record of this severity is written where `minimum` is the least that is. -/
def reaches (s minimum : Severity) : Bool := minimum.rank ≤ s.rank

end Severity

/-! ## Records -/

/-- A named field of a record. -/
abbrev LogField := String × String

/-- An event as it is logged. -/
structure LogRecord where
  event : String
  severity : Severity
  fields : List LogField
  deriving Repr, DecidableEq, Inhabited

namespace LogRecord

/-- The fields in the order of their names; fields of one name keep their order. -/
def sortedFields (r : LogRecord) : List LogField := r.fields.mergeSort fun x y => x.1 ≤ y.1

/-- The JSON form of a record. A field that is named like an earlier one replaces its value. -/
def toJson (r : LogRecord) : Json :=
  .object (r.sortedFields.foldl (fun pairs field => Json.setPair pairs field.1 (.string field.2))
    [("event", .string r.event), ("severity", .string r.severity.text)])

/-- The line of a record, without its end. -/
def line (r : LogRecord) : String := r.toJson.compact

end LogRecord

/-! ## Events -/

/-- An observable event. -/
inductive Event where
  | sessionStart
  | sessionReady
  | sessionShutdown
  | configLoaded
  | typesDeclared
  | queryReceived
  | queryAnalysed
  | queryExecuted
  | queryRejected
  | collectionMaterialized
  | shuffleBegin
  | shuffleComplete
  | sourceIngested
  | explainBegin
  | explainComplete
  deriving Repr, DecidableEq, Inhabited

namespace Event

/-- Every event. -/
def all : List Event :=
  [sessionStart, sessionReady, sessionShutdown, configLoaded, typesDeclared, queryReceived,
   queryAnalysed, queryExecuted, queryRejected, collectionMaterialized, shuffleBegin,
   shuffleComplete, sourceIngested, explainBegin, explainComplete]

/-- The name of an event in records. -/
def name : Event → String
  | sessionStart => "SESSION_BEGIN"
  | sessionReady => "SESSION_READY"
  | sessionShutdown => "SESSION_SHUTDOWN"
  | configLoaded => "CONFIG_LOADED"
  | typesDeclared => "TYPES_DECLARED"
  | queryReceived => "QUERY_BEGIN"
  | queryAnalysed => "QUERY_ANALYSED"
  | queryExecuted => "QUERY_COMPLETE"
  | queryRejected => "QUERY_REJECTED"
  | collectionMaterialized => "COLLECTION_MATERIALIZED"
  | shuffleBegin => "SHUFFLE_BEGIN"
  | shuffleComplete => "SHUFFLE_COMPLETE"
  | sourceIngested => "SOURCE_INGESTED"
  | explainBegin => "EXPLAIN_BEGIN"
  | explainComplete => "EXPLAIN_COMPLETE"

/-- Whether an event is routine detail of an evaluation. -/
def isDetail : Event → Bool
  | collectionMaterialized | shuffleBegin | shuffleComplete | sourceIngested => true
  | _ => false

/-- The severity an event is logged at. -/
def severity (e : Event) : Severity :=
  if e = queryRejected then .error else if e.isDetail then .trace else .info

/-- The record of an event. -/
def record (e : Event) (fields : List LogField) : LogRecord := ⟨e.name, e.severity, fields⟩

end Event

/-! ## Durations -/

/-- A field for the milliseconds that something took. Evaluation reads no clock: whoever writes the
log may put in what was measured. -/
def unmeasured (name : String) : LogField := (name, "0")

/-! ## Phases -/

/-- How a phase ends. -/
inductive PhaseEnd where
  | complete
  | failed (reason : String)
  /-- Neither completed nor failed. -/
  | abandoned
  deriving Repr, DecidableEq

/-- The record of the beginning of a phase. -/
def phaseBegun (phase : String) : LogRecord := ⟨phase ++ "_BEGIN", .info, []⟩

/-- The record of the end of a phase. -/
def phaseEnded (phase : String) : PhaseEnd → LogRecord
  | .complete => ⟨phase ++ "_COMPLETE", .info, [unmeasured "duration_ms"]⟩
  | .failed reason =>
    ⟨phase ++ "_FAILED", .error, [unmeasured "duration_ms", ("reason", reason)]⟩
  | .abandoned => ⟨phase ++ "_ABANDONED", .warn, [unmeasured "duration_ms"]⟩

end HybridQuery
