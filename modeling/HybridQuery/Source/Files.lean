import HybridQuery.Error
import HybridQuery.Text.Blank

/-!
# Files and source locations

A source is a file of lines, named by its path or by a `file://` location. No other scheme is read.

* `SourceLocation.path`: the path of a location.
* `Files.readText`: the text of a path that is a file.
-/

namespace HybridQuery

/-! ## Files -/

/-- What stands at a path. -/
inductive FileState where
  | missing
  | directory
  | file (content : ByteArray)
  deriving Inhabited

/-- What stands at every path. -/
abbrev Files := String → FileState

/-- Nothing stands anywhere. -/
def Files.empty : Files := fun _ => .missing

/-- Why a file cannot be read as text. -/
inductive FileFault where
  | missing
  | directory
  | notText
  deriving Repr, DecidableEq

/-- The wording of a fault. -/
def FileFault.message : FileFault → String
  | missing => "No such file or directory (os error 2)"
  | directory => "Is a directory (os error 21)"
  | notText => "stream did not contain valid UTF-8"

/-- The text of the file at a path. -/
def Files.readText (files : Files) (path : String) : Except FileFault String :=
  match files path with
  | .missing => .error .missing
  | .directory => .error .directory
  | .file content =>
    match String.fromUTF8? content with
    | some text => .ok text
    | none => .error .notText

/-! ## Locations -/

/-- Why a source cannot be read. -/
inductive SourceFault where
  | notFound (location : String)
  | unsupportedScheme (location : String)
  | unreadable (location reason : String)
  deriving Repr, DecidableEq

namespace SourceFault

/-- The wording of a fault. -/
def message : SourceFault → String
  | notFound location => s!"File {location} not found."
  | unsupportedScheme location =>
    s!"Unsupported scheme in {location}; only local paths and file:// are readable"
  | unreadable location reason => s!"Cannot read {location}: {reason}"

/-- The engine's fault for a source that cannot be read. -/
def toFault : SourceFault → Fault
  | unsupportedScheme location => .unsupported s!"remote source {location}"
  | fault => .resource fault.message

end SourceFault

namespace SourceLocation

/-- The scheme of a location and what follows the first `://`. -/
def splitScheme : List Char → Option (List Char × List Char)
  | [] => none
  | ':' :: '/' :: '/' :: rest => some ([], rest)
  | c :: rest => (splitScheme rest).map fun (scheme, path) => (c :: scheme, path)

/-- The path that a location stands for. -/
def path (location : String) : Except SourceFault String :=
  match splitScheme location.toList with
  | none => .ok location
  | some (scheme, path) =>
    if String.ofList scheme = "file" then .ok (String.ofList path)
    else .error (.unsupportedScheme location)

/-- The text of the file that a location stands for. -/
def readText (files : Files) (location : String) : Except SourceFault String := do
  let path ← path location
  match files path with
  | .file _ => (files.readText path).mapError fun fault => .unreadable location fault.message
  | _ => .error (.notFound location)

end SourceLocation
end HybridQuery
