import HybridQuery.Observe.Event

/-!
# Loggers

Which records are written is decided by the logger that was attached last; without any, records of
severity INFO and above are.
-/

namespace HybridQuery

/-- The attached loggers, the last one first; of each the least severity that it writes. -/
structure Loggers where
  attached : List Severity
  deriving Repr, DecidableEq, Inhabited

namespace Loggers

/-- No attached logger. -/
def empty : Loggers := ⟨[]⟩

/-- The least severity that is written. -/
def minimum (l : Loggers) : Severity := l.attached.head?.getD .info

/-- Attaches a logger. -/
def attach (l : Loggers) (minimum : Severity) : Loggers := ⟨minimum :: l.attached⟩

/-- Detaches the logger that was attached last, if there is one. -/
def detach (l : Loggers) : Loggers := ⟨l.attached.drop 1⟩

/-- Whether records of a severity are written. -/
def writes (l : Loggers) (severity : Severity) : Bool := severity.reaches l.minimum

/-- The records that are written. -/
def written (l : Loggers) (records : List LogRecord) : List LogRecord :=
  records.filter fun r => l.writes r.severity

end Loggers
end HybridQuery
