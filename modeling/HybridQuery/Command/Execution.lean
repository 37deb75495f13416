import HybridQuery.Command.Arguments
import HybridQuery.Item.Printed
import HybridQuery.Session.Basic
import HybridQuery.Syntax.Decode

/-!
# Executing commands

A command loads its configuration and its module, starts a session, does its work and shuts the
session down. The result of a query and an error of one are a line of JSON on standard output.

* `Command.execute`: what a command prints, logs and fails with.
* `CommandFault.code`, `CommandFault.text`: the code and the wording of a failure.
-/

namespace HybridQuery

/-! ## Faults -/

/-- Why a command fails. -/
inductive CommandFault where
  | config (fault : ConfigFault)
  | unknownLevel (level : String)
  /-- Standard input is no text. -/
  | inputNotText
  /-- Standard input is blank. -/
  | noModule
  /-- Standard input is no JSON. -/
  | malformedInput
  /-- An explained module is rejected. -/
  | rejected (reason : String)
  | engine (error : EngineError)
  deriving Repr, DecidableEq, Inhabited

namespace CommandFault

/-- The code a fault is reported under. -/
def code : CommandFault → String
  | config _ | unknownLevel _ => "TQ_CLI_CONFIG_ERROR"
  | inputNotText | noModule | malformedInput => "TQ_CLI_IO_ERROR"
  | rejected _ => "TQ_CLI_QUERY_REJECTED"
  | engine error => error.code.text

/-- The wording of a fault. -/
def message : CommandFault → String
  | config fault => fault.message
  | unknownLevel level => s!"Invalid log level: '{level}'"
  | inputNotText => FileFault.notText.message
  | noModule => "No query module on stdin"
  | malformedInput => "Malformed JSON"
  | rejected reason => reason
  | engine error => error.text

/-- The full text of a fault. -/
def text : CommandFault → String
  | engine error => error.text
  | fault => s!"{fault.code}: {fault.message}"

end CommandFault

/-! ## Loading -/

/-- What a command reads. -/
structure CommandInput where
  files : Files
  standardInput : ByteArray

/-- Puts options in the place of configured values. -/
def Overrides.apply (o : Overrides) (c : EngineConfig) : Except CommandFault EngineConfig := do
  let c := { c with
    defaultPartitions := o.partitions.getD c.defaultPartitions
    workerThreads := o.workers.getD c.workerThreads }
  match o.logLevel with
  | none => return c
  | some level =>
    if (Severity.parse? level).isNone then .error (.unknownLevel level)
    else return { c with logLevel := level }

/-- The configuration of a command: of a file, or the default one. -/
def loadConfig (files : Files) (path : Option String) (overrides : Overrides) :
    Except CommandFault EngineConfig := do
  let c ←
    match path with
    | some path => (EngineConfig.load files path).mapError .config
    | none => pure {}
  let c ← overrides.apply c
  c.check.mapError .config
  return c

/-- The record of a loaded configuration. -/
def configLoaded (path : Option String) (c : EngineConfig) : LogRecord :=
  Event.configLoaded.record
    [("default_partitions", toString c.defaultPartitions), ("source", path.getD "defaults")]

/-- The module of a file. -/
def moduleOfFile (files : Files) (path : String) : EngineResult QueryModule := do
  match files.readText path with
  | .ok text => QueryModule.ofText text
  | .error fault => .fail (.resource s!"Cannot read query module {path}: {fault.message}")

/-- The module of standard input. -/
def moduleOfInput (content : ByteArray) : Except CommandFault QueryModule :=
  match String.fromUTF8? content with
  | none => .error .inputNotText
  | some text =>
    if (Text.trim text).isEmpty then .error .noModule
    else
      match Json.read? text with
      | none => .error .malformedInput
      | some json => (QueryModule.ofJson json.merged).mapError .engine

/-- The module of a command. -/
def loadModule (input : CommandInput) : Option String → Except CommandFault QueryModule
  | some path => (moduleOfFile input.files path).mapError .engine
  | none => moduleOfInput input.standardInput

/-! ## Responses -/

/-- The line for the result of a query. -/
def resultLine (items : Sequence) : String :=
  (Json.object [("status", .string "ok"), ("data", .array (items.map Item.toJson))]).compact ++ "\n"

/-- The line for an error of a query. -/
def errorLine (error : EngineError) : String :=
  (Json.object
    [("status", .string "error"), ("code", .string error.code.text),
     ("message", .string error.text)]).compact ++ "\n"

/-- What a command leaves behind. -/
structure Execution where
  output : String
  failure : Option CommandFault
  log : List LogRecord
  /-- Paths that were looked at by a query. -/
  consulted : List String

namespace Execution

/-- A command that fails before it prints anything. -/
def failed (fault : CommandFault) (log : List LogRecord) : Execution := ⟨"", some fault, log, []⟩

/-- A command that was carried out on a session, after what was logged before. -/
def finished (log : List LogRecord) (s : Session) (output : String)
    (failure : Option CommandFault) : Execution :=
  ⟨output, failure, log ++ s.record.log, s.record.consulted⟩

end Execution

/-! ## Commands -/

/-- Carries a command out on a session that is started for it. -/
def withSession (input : CommandInput) (query config : Option String) (overrides : Overrides)
    (id : String) (work : List LogRecord → Session → QueryModule → Execution) : Execution :=
  match loadConfig input.files config overrides with
  | .error fault => .failed fault []
  | .ok c =>
    let log := [configLoaded config c]
    match loadModule input query with
    | .error fault => .failed fault log
    | .ok m =>
      let started := Session.start c id
      match started.session with
      | .error error => .failed (.engine error) (log ++ started.record.log)
      | .ok s => work log s m

/-- Evaluates a module and prints the result. -/
def runModule (files : Files) (log : List LogRecord) (s : Session) (m : QueryModule) : Execution :=
  let (result, _, s) := s.evaluate files m
  match result with
  | .ok items => .finished log s.shutdown (resultLine items) none
  | .error error => .finished log s.shutdown (errorLine error) (some (.engine error))

/-- Prints the plan of a module. -/
def explainModule (log : List LogRecord) (s : Session) (m : QueryModule) : Execution :=
  let (plan, _, s) := s.explain m
  .finished log s.shutdown plan.text (plan.rejection?.map fun r => .rejected r.reason)

namespace Command

/-- The path of the module that a command works on. -/
def query? : Command → Option String
  | run query _ _ | explain query _ => query

/-- The path of the configuration of a command. -/
def config? : Command → Option String
  | run _ config _ | explain _ config => config

/-- Carries a command out; `id` tells its session apart. -/
def execute (input : CommandInput) (id : String) : Command → Execution
  | run query config overrides =>
    withSession input query config overrides id (runModule input.files)
  | explain query config => withSession input query config {} id explainModule

end Command
end HybridQuery
