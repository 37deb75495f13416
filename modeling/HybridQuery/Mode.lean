import HybridQuery.Error

/-!
# Execution modes

A mode names how a node is evaluated. Analysis computes it once and it never changes afterwards.

* `Mode.rowWise`: the mode of a node that works item by item on an input.
* `ModeSlot.set`: the first mode written stays.
-/

namespace HybridQuery

/-- How a node is evaluated. -/
inductive Mode where
  /-- Not computed yet. -/
  | unset
  /-- On the host, one result after the other. -/
  | host
  /-- Distributed, as a collection of items. -/
  | rows
  /-- Distributed, as a frame of columns. -/
  | columns
  deriving Repr, DecidableEq, Inhabited

namespace Mode

/-- The reported name of a mode. -/
def text : Mode → String
  | unset => "UNSET"
  | host => "LOCAL"
  | rows => "PARALLEL_ROWWISE"
  | columns => "PARALLEL_COLUMNAR"

/-- Place in the order from the least to the most distributed mode. -/
def rank : Mode → Nat
  | unset => 0
  | host => 1
  | rows => 2
  | columns => 3

/-- Order of modes by how distributed they are. -/
def compare (a b : Mode) : Ordering := Ord.compare a.rank b.rank

/-- Whether the node is evaluated on the host. -/
def isHost (m : Mode) : Bool := m == host

/-- Whether the node has a distributed form. -/
def isParallel (m : Mode) : Bool := m == rows || m == columns

/-- Whether the node has a columnar form. -/
def isColumnar (m : Mode) : Bool := m == columns

/-- The mode of item-by-item work on an input: distributed by rows if the input is distributed at
all, on the host otherwise. -/
def rowWise (m : Mode) : Mode := if m.isParallel then rows else host

end Mode

/-- The fault of reading a mode that was not computed. -/
def Fault.modeUnset (node : String) : Fault :=
  .flow s!"Execution mode of {node} read before it was computed"

/-- A mode that is written at most once. -/
structure ModeSlot where
  value : Option Mode
  deriving Repr, DecidableEq, Inhabited

namespace ModeSlot

/-- A slot that nothing was written to. -/
def empty : ModeSlot := ⟨none⟩

/-- Writes a mode, unless one was written before. -/
def set (slot : ModeSlot) (mode : Mode) : ModeSlot := ⟨some (slot.value.getD mode)⟩

/-- Whether a mode was written. -/
def isComputed (slot : ModeSlot) : Bool := slot.value.isSome

/-- The mode, `unset` if none was written. -/
def getD (slot : ModeSlot) : Mode := slot.value.getD .unset

/-- The mode of a node of this name; reading it too early is a fault of the engine. -/
def get (slot : ModeSlot) (node : String) : EngineResult Mode :=
  match slot.value with
  | some mode => .ok mode
  | none => .fail (.modeUnset node)

/-- Whether two slots show the same mode. -/
def shows (slot other : ModeSlot) : Bool := slot.getD == other.getD

end ModeSlot
end HybridQuery
