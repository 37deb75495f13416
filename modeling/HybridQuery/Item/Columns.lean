import HybridQuery.Item.Order

/-!
# Frames of items

A frame keeps the cells of objects column by column. It reads back as objects, or after a projection
as the values of its single column.

* `Frame.ofObjects`: the frame of a collection of objects.
* `Frame.select`: projects one key.
* `Frame.toRows`: the rows, in the partitions of the frame; `Frame.count` is their number.
-/

namespace HybridQuery

/-- The fault of a row that is no object. -/
def Fault.rowNotObject (item : Item) : Fault :=
  .invalidArgument s!"Columnar rows must be objects, found {item.typeName}"

namespace Chunk

/-- The cells of an object under the names of the columns, absent ones left out. -/
def rowObject (names : List String) (chunk : Chunk Item) (index : Nat) : Item :=
  .object ((names.zip chunk.columns).filterMap fun (name, column) =>
    column[index]?.join.map fun value => (name, value))

/-- The cells of the first column. -/
def firstColumn (chunk : Chunk Item) : List (Option Item) := chunk.columns.head?.getD []

/-- The cells of a partition of objects. -/
def ofObjects (names : List String) (partition : List Item) : Chunk Item :=
  { columns := names.map fun name => partition.map (·.member? name)
    rows := partition.length }

end Chunk

namespace Frame

/-- The keys of objects, each at its first occurrence; the first item that is no object is at
fault. -/
def keysOf (items : List Item) : EngineResult (List String) :=
  match items.find? (!·.isObject) with
  | some item => .fail (.rowNotObject item)
  | none => .ok (items.flatMap Item.keys)

/-- The frame of a collection of objects, in the same partitions. The columns are the keys in the order
in which they are first seen. -/
def ofObjects (rows : Collection Item) : EngineResult (Frame Item) := do
  let keys ← rows.partitions.mapM keysOf
  let columns := keys.flatten.eraseDups
  return { columns := columns
           chunks := rows.partitions.map (Chunk.ofObjects columns)
           kind := .objects }

/-- Number of partitions. -/
def numPartitions (frame : Frame Item) : Nat := frame.chunks.length

/-- The cells of one key in a chunk. -/
def selectChunk (frame : Frame Item) (key : String) (chunk : Chunk Item) : Chunk Item :=
  let cells :=
    match frame.kind with
    | .objects =>
      match frame.columns.idxOf? key with
      | some index => chunk.columns[index]?.getD []
      | none => List.replicate chunk.rows none
    | .values => chunk.firstColumn.map fun cell => cell.bind (·.member? key)
  ⟨[cells], chunk.rows⟩

/-- Projects one key: the cells of its column, or in a frame of values the members of that key. -/
def select (frame : Frame Item) (key : String) : Frame Item :=
  { columns := [key]
    chunks := frame.chunks.map (frame.selectChunk key)
    kind := .values }

/-- The rows of one chunk. -/
def chunkRows (frame : Frame Item) (chunk : Chunk Item) : List Item :=
  match frame.kind with
  | .objects => (List.range chunk.rows).map (chunk.rowObject frame.columns)
  | .values => chunk.firstColumn.filterMap id

/-- The rows of a frame. -/
def toRows (frame : Frame Item) : Collection Item := ⟨frame.chunks.map frame.chunkRows⟩

/-- Number of rows that one chunk reads back as. -/
def chunkCount (frame : Frame Item) (chunk : Chunk Item) : Nat :=
  match frame.kind with
  | .objects => chunk.rows
  | .values => (chunk.firstColumn.filter Option.isSome).length

/-- Number of rows that the frame reads back as. -/
def count (frame : Frame Item) : Nat :=
  frame.chunks.foldl (fun n chunk => n + frame.chunkCount chunk) 0

end Frame

namespace Value

/-- No items. -/
def empty : Value Item := .items []

/-- A single item. -/
def single (item : Item) : Value Item := .items [item]

/-- The mode that has this representation. -/
def mode : Value Item → Mode
  | items _ => .host
  | rows _ => .rows
  | columns _ => .columns

/-- Equality of values in one representation. How a distributed value is partitioned does not
matter. -/
def same : Value Item → Value Item → Bool
  | items a, items b => Item.sameMembers a b
  | rows a, rows b => Item.sameMembers a.records b.records
  | columns a, columns b =>
    a.columns == b.columns && Item.sameMembers a.toRows.records b.toRows.records
  | _, _ => false

end Value
end HybridQuery
