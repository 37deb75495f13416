import HybridQuery.Json.Value

/-!
# Metrics

Counters of an engine. They only grow; amounts wrap at 64 bits.
-/

namespace HybridQuery

/-- The counters of a session. -/
structure Metrics where
  /-- Queries that gave a result. -/
  queriesExecuted : Nat := 0
  /-- Queries that failed. -/
  queriesRejected : Nat := 0
  /-- Iterators that were opened. -/
  iteratorsOpened : Nat := 0
  /-- Function bodies that invocations opened. -/
  bodiesOpened : Nat := 0
  /-- Function bodies that invocations closed. -/
  bodiesClosed : Nat := 0
  /-- Distributed collections that were pulled to the host. -/
  materializations : Nat := 0
  /-- Items that were pulled to the host. -/
  itemsMaterialized : Nat := 0
  /-- Shuffles of distributed tuples. -/
  shuffles : Nat := 0
  /-- Records that were read from sources. -/
  recordsIngested : Nat := 0
  deriving Repr, DecidableEq, Inhabited

namespace Metrics

/-- Adds an amount to a counter of 64 bits. -/
def addAmount (counter amount : Nat) : Nat := (counter + amount) % Power.two 64

/-- Counts a query that gave a result. -/
def queryExecuted (m : Metrics) : Metrics := { m with queriesExecuted := m.queriesExecuted + 1 }

/-- Counts a query that failed. -/
def queryRejected (m : Metrics) : Metrics := { m with queriesRejected := m.queriesRejected + 1 }

/-- Counts an iterator that is opened. -/
def iteratorOpened (m : Metrics) : Metrics := { m with iteratorsOpened := m.iteratorsOpened + 1 }

/-- Counts a function body that is opened. -/
def bodyOpened (m : Metrics) : Metrics := { m with bodiesOpened := m.bodiesOpened + 1 }

/-- Counts function bodies that are closed. -/
def addBodiesClosed (m : Metrics) (n : Nat) : Metrics :=
  { m with bodiesClosed := m.bodiesClosed + n }

/-- Counts a materialization of a number of items. -/
def materialized (m : Metrics) (items : Nat) : Metrics :=
  { m with
    materializations := m.materializations + 1
    itemsMaterialized := addAmount m.itemsMaterialized items }

/-- Counts a shuffle. -/
def shuffled (m : Metrics) : Metrics := { m with shuffles := m.shuffles + 1 }

/-- Counts records of a source. -/
def ingested (m : Metrics) (records : Nat) : Metrics :=
  { m with recordsIngested := addAmount m.recordsIngested records }

/-- The counters under their names. -/
def counters (m : Metrics) : List (String × Nat) :=
  [("queries_executed", m.queriesExecuted),
   ("queries_rejected", m.queriesRejected),
   ("iterators_opened", m.iteratorsOpened),
   ("function_bodies_opened", m.bodiesOpened),
   ("function_bodies_closed", m.bodiesClosed),
   ("materializations", m.materializations),
   ("items_materialized", m.itemsMaterialized),
   ("shuffles", m.shuffles),
   ("records_ingested", m.recordsIngested)]

/-- The counters as JSON. -/
def toJson (m : Metrics) : Json :=
  .object (m.counters.map fun (name, value) => (name, .integer value))

end Metrics
end HybridQuery
