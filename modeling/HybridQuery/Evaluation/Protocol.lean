import HybridQuery.Engine.Basic
import HybridQuery.Evaluation.Cursor

/-!
# The iterator protocol

A cursor is opened in a context, hands out one result after the other, and is closed. On the host its
node is driven result by result. In a distributed mode the node gives its distributed form, which is
pulled to the host when the cursor is opened.

* `Rules`: how nodes of one kind are driven.
* `Rules.openIn`, `Rules.next`, `Rules.reset`, `Cursor.release`: the protocol.
* `Rules.collection`: the distributed form, kept until the cursor is closed.
* `Rules.drain`: everything that is left.
-/

namespace HybridQuery

/-! ## Nodes -/

/-- What every kind of node can do by itself. -/
class CursorNode (ν : Type) where
  name : ν → String
  /-- The node with nothing under way. -/
  closed : ν → ν
  /-- Function bodies that closing the node closes. -/
  openBodies : ν → Nat

instance : CursorNode Node := ⟨Node.name, Node.closed, Node.openBodies⟩
instance : CursorNode ClauseNode := ⟨ClauseNode.name, ClauseNode.closed, ClauseNode.openBodies⟩

/-- How nodes of one kind are driven. -/
structure Rules (ν α : Type) where
  /-- Prepares the node to be driven on the host. -/
  start : Context → Step ν Unit
  /-- The next result on the host. -/
  pull : Step ν (Option α)
  /-- The distributed form. -/
  collect : Mode → Context → Step ν (Collection α)

/-! ## Faults -/

namespace Fault

/-- A node was asked for a distributed form that it never has. -/
def noDistributedForm (node : String) : Fault := .flow s!"{node} has no distributed form"

/-- A node was asked for a columnar form that it never has. -/
def noColumnarForm (node : String) : Fault := .flow s!"{node} has no columnar form"

/-- A node was asked for a distributed form that it has not in its mode. -/
def notDistributed (node : String) (mode : Mode) : Fault :=
  .flow s!"Distributed form requested from {node} in mode {mode.text}"

/-- A node was asked for a columnar form that it has not in its mode. -/
def notColumnar (node : String) (mode : Mode) : Fault :=
  .flow s!"Columnar form requested from {node} in mode {mode.text}"

end Fault

/-! ## Closing -/

namespace Cursor

variable {ν α β : Type} [CursorNode ν]

/-- The name of the node. -/
def name (c : Cursor ν α) : String := CursorNode.name c.node

/-- The cursor with nothing under way: what a copy of it is. -/
def closed (c : Cursor ν α) : Cursor ν α := .idle c.mode c.position (CursorNode.closed c.node)

/-- Closes the cursor and everything below it. -/
def release : Step (Cursor ν α) Unit := do
  let c ← Step.read
  Step.write c.closed
  Step.lift (Engine.count (·.addBodiesClosed (CursorNode.openBodies c.node)))

/-- Runs a step on the node. -/
def drive (x : Step ν β) : Step (Cursor ν α) β := do
  let c ← Step.read
  let (b, _) ← Step.part (fun node => { c with node := node }) c.node x
  return b

end Cursor

/-- Cleans up if a computation fails. -/
def Run.onFailure {σ α : Type} (x : Run σ α) (cleanUp : Run σ Unit) : Run σ α := fun env s =>
  match x env s with
  | .ok a s => .ok a s
  | .error f s =>
    match cleanUp env s with
    | .ok _ s => .error f s
    | .error _ s => .error f s

/-! ## The protocol -/

namespace Rules

variable {ν α : Type} [CursorNode ν] (r : Rules ν α)

/-- The next result: of what was pulled to the host, or of the node. -/
def advance : Step (Cursor ν α) (Option α) := do
  let c ← Step.read
  match c.materialized with
  | some [] => return none
  | some (a :: rest) =>
    Step.write { c with materialized := some rest }
    return some a
  | none => (Cursor.drive r.pull).locate c.position

/-- The distributed form that is kept for a context. -/
def kept? (c : Cursor ν α) (context : Context) : Option (Collection α) :=
  match c.memo, context.handle with
  | some (kept, rows), some asked => if kept = asked then some rows else none
  | _, _ => none

/-- The distributed form. It is kept for a context that is recognised. -/
def collection (context : Context) : Step (Cursor ν α) (Collection α) := do
  let c ← Step.read
  if !c.mode.isParallel then
    Run.locate (Run.fail (.notDistributed c.name c.mode)) c.position
  else
    match kept? c context with
    | some rows => return rows
    | none =>
      let rows ← (Cursor.drive (r.collect c.mode context)).locate c.position
      let c ← Step.read
      Step.write { c with memo := context.handle.map fun handle => (handle, rows) }
      return rows

/-- Prepares the results: the node on the host, or the distributed form pulled to the host. -/
def prepare (context : Context) : Step (Cursor ν α) Unit := do
  let c ← Step.read
  match c.mode with
  | .unset => Run.locate (Run.fail (.modeUnset c.name)) c.position
  | .host => (Cursor.drive (r.start context)).locate c.position
  | .rows | .columns =>
    let rows ← r.collection context
    let records ← Step.lift (Engine.materialize rows c.position)
    let c ← Step.read
    Step.write { c with materialized := some records }

/-- Prepares the results and computes the first one. -/
def begin (context : Context) : Step (Cursor ν α) Unit := do
  r.prepare context
  let first ← r.advance
  let c ← Step.read
  Step.write { c with lookahead := .opened first }

/-- Opens the cursor; one that is open is closed first. -/
def openIn (context : Context) : Step (Cursor ν α) Unit := do
  let c ← Step.read
  if c.isOpen then Cursor.release
  Step.lift (Engine.count Metrics.iteratorOpened)
  (r.begin context).onFailure Cursor.release

/-- Opens the cursor anew. -/
def reset (context : Context) : Step (Cursor ν α) Unit := do
  Cursor.release
  r.begin context

/-- Hands out the pending result and computes the one after it. -/
def next : Step (Cursor ν α) α := do
  let c ← Step.read
  match c.lookahead.take c.name with
  | (.error e, _) => Run.raise (e.locate c.position)
  | (.ok a, lookahead) =>
    Step.write { c with lookahead := lookahead }
    let following ← r.advance
    let c ← Step.read
    Step.write { c with lookahead := c.lookahead.refill following }
    return a

/-- The next result, if one is pending. -/
def next? : Step (Cursor ν α) (Option α) := do
  if (← Step.read).hasNext then return some (← r.next) else return none

/-- Hands out what is left of an open cursor, and closes it; `taken` holds what was handed out before,
the last one first. -/
def drainOnto : Nat → List α → Step (Cursor ν α) (List α)
  | 0, _ => Run.exhausted
  | limit + 1, taken => do
    if (← Step.read).hasNext then
      let a ← r.next.onFailure Cursor.release
      drainOnto limit (a :: taken)
    else
      Cursor.release
      return taken.reverse

/-- Hands out everything that is left of an open cursor, and closes it. -/
def drain (limit : Nat) : Step (Cursor ν α) (List α) := r.drainOnto limit []

end Rules
end HybridQuery
