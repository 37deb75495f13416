import HybridQuery.Engine.Basic
import HybridQuery.Item.Printed
import HybridQuery.Text.Blank

/-!
# Reading sources

* `Engine.textLines`: the lines of a text file, partitioned.
* `Engine.jsonLines`: the items of a file of JSON lines; blank lines are skipped.
* `Engine.jsonFrame`: the frame of a file of JSON lines that are objects.
-/

namespace HybridQuery
namespace Engine

/-- The text of the file at a location, with the fault of one that cannot be read. -/
def sourceText (location : String) : Engine (Except SourceFault String) := do
  let env ← Run.environment
  if let .ok path := SourceLocation.path location then consult path
  return SourceLocation.readText env.files location

/-- The lines of a text file, or why it cannot be read. -/
def textLines? (location : String) (partitions : Nat) :
    Engine (Except SourceFault (Collection String)) := do
  match ← sourceText location with
  | .error fault => return .error fault
  | .ok text =>
    let lines := Text.lines text
    let collection := Collection.parallelize lines partitions
    log .sourceIngested
      [("location", location), ("partitions", toString collection.numPartitions),
       ("records", toString lines.length)]
    return .ok collection

/-- The lines of a text file. -/
def textLines (location : String) (partitions : Nat) : Engine (Collection String) := do
  match ← textLines? location partitions with
  | .ok lines => return lines
  | .error fault => Run.fail fault.toFault

/-- The items of a line: none if it is blank. -/
def lineItems (line : String) : EngineResult (List Item) :=
  if (Text.trim line).isEmpty then .ok [] else do return [← Item.ofLine line]

/-- The items of a file of JSON lines. -/
def jsonLines (location : String) (partitions : Nat) : Engine (Collection Item) := do
  let lines ← textLines location partitions
  Run.ofResult (lines.flatMapM lineItems)

/-- The frame of a file of JSON lines. -/
def jsonFrame (location : String) : Engine (Frame Item) := do
  let env ← Run.environment
  let rows ← jsonLines location env.defaultPartitions
  Run.ofResult (Frame.ofObjects rows)

end Engine
end HybridQuery
