import HybridQuery.Json.Reader
import HybridQuery.Observe.Event
import HybridQuery.Source.Files
import HybridQuery.Types.Declaration

/-!
# Engine configuration

A configuration is a record in which every field has a default. It is checked before a session is
started from it.

* `EngineConfig.ofText`, `EngineConfig.load`: the checked configuration of a text or a file.
* `EngineConfig.check`: whether the values are in their ranges; the first one that is not is at fault.
-/

namespace HybridQuery

/-- What a session is started from. -/
structure EngineConfig where
  /-- Partitions of a source that does not say otherwise. -/
  defaultPartitions : Nat := 4
  /-- Number of workers; zero stands for one for each processor. -/
  workerThreads : Nat := 0
  /-- Most items that may be pulled to the host at once. -/
  materializationCap : Option Nat := none
  /-- Name of the least severity that is logged. -/
  logLevel : String := "info"
  typeDeclarations : List ObjectType := []
  deriving Repr, DecidableEq, Inhabited

/-- Why a configuration is refused. -/
inductive ConfigFault where
  | unreadable (path reason : String)
  | malformed
  | noPartitions
  | zeroCap
  | unknownLevel (level : String)
  deriving Repr, DecidableEq, Inhabited

namespace ConfigFault

/-- The wording of a fault. -/
def message : ConfigFault → String
  | unreadable path reason => s!"Failed to read config {path}: {reason}"
  | malformed => "Invalid config JSON"
  | noPartitions => "default_partitions must be > 0"
  | zeroCap => "materialization_cap must be > 0 when set"
  | unknownLevel level =>
    s!"Invalid log_level: '{level}'. Must be one of trace, info, warn, error, fatal."

/-- The engine's fault for a configuration that is refused. -/
def toFault : ConfigFault → Fault
  | unreadable path reason => .resource (unreadable path reason).message
  | fault => .invalidArgument fault.message

end ConfigFault

namespace EngineConfig

/-- The least severity that is logged. -/
def severity (c : EngineConfig) : Severity := (Severity.parse? c.logLevel).getD .info

/-- Checks the ranges of the values. -/
def check (c : EngineConfig) : Except ConfigFault Unit :=
  if c.defaultPartitions = 0 then .error .noPartitions
  else if c.materializationCap = some 0 then .error .zeroCap
  else if (Severity.parse? c.logLevel).isNone then .error (.unknownLevel c.logLevel)
  else .ok ()

/-! ## JSON -/

/-- The names of the fields. -/
def fieldNames : List String :=
  ["default_partitions", "worker_threads", "materialization_cap", "log_level", "type_declarations"]

/-- Reads a configuration; its values are not checked. -/
def ofJson? (json : Json) : Option EngineConfig := do
  let size := Json.natural? Json.bound64
  let unset : EngineConfig := {}
  match ← json.record? fieldNames with
  | [partitions, workers, cap, level, declarations] =>
    return { defaultPartitions := ← Json.orDefault partitions unset.defaultPartitions size
             workerThreads := ← Json.orDefault workers unset.workerThreads size
             materializationCap := ← Json.orDefault cap none (Json.nullable size)
             logLevel := ← Json.orDefault level unset.logLevel Json.string?
             typeDeclarations :=
               ← Json.orDefault declarations [] (Json.listOf? ObjectType.ofJson?) }
  | _ => none

/-- The JSON form of a number. -/
def naturalJson (n : Nat) : Json := .integer n

/-- The JSON form of a configuration. -/
def toJson (c : EngineConfig) : Json :=
  .object (fieldNames.zip
    [naturalJson c.defaultPartitions, naturalJson c.workerThreads,
     (c.materializationCap.map naturalJson).getD .null, .string c.logLevel,
     .array (c.typeDeclarations.map ObjectType.toJson)])

/-! ## Loading -/

/-- The configuration of a text. -/
def ofText (text : String) : Except ConfigFault EngineConfig := do
  match (Json.read? text).bind ofJson? with
  | none => .error .malformed
  | some c =>
    c.check
    return c

/-- The configuration of a file. -/
def load (files : Files) (path : String) : Except ConfigFault EngineConfig := do
  let text ← (files.readText path).mapError fun fault => .unreadable path fault.message
  ofText text

end EngineConfig
end HybridQuery
