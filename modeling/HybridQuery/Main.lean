import HybridQuery.Command.Execution

/-!
# The program

Reads the arguments and the files that a command looks at, carries the command out and prints what it
leaves behind. A query may compute the names of the files it reads, so that it is carried out again
until every file it looks at is known.
-/

namespace HybridQuery

/-- Files that were read so far. -/
abbrev KnownFiles := List (String × FileState)

/-- What stands at a path. -/
def readFileState (path : String) : IO FileState := do
  try
    return .file (← IO.FS.readBinFile path)
  catch
    | .inappropriateType .. => return .directory
    | _ => return .missing

/-- Reads the paths that are not known yet. -/
def readPaths (known : KnownFiles) (paths : List String) : IO KnownFiles :=
  paths.foldlM
    (fun known path => do
      if known.any (·.1 == path) then return known
      return (path, ← readFileState path) :: known)
    known

/-- The files as far as they are known. -/
def KnownFiles.files (known : KnownFiles) : Files := fun path => (known.lookup path).getD .missing

/-- Carries a command out until every path it looks at is known. -/
partial def executeKnowing (known : KnownFiles) (standardInput : ByteArray) (id : String)
    (command : Command) : IO Execution := do
  let execution := command.execute ⟨known.files, standardInput⟩ id
  let more ← readPaths known execution.consulted
  if more.length = known.length then return execution
  executeKnowing more standardInput id command

/-- Standard input, if the command reads its module from there. -/
def readStandardInput (command : Command) : IO ByteArray := do
  if command.query?.isSome then return .empty
  (← IO.getStdin).readBinToEnd

/-- A name for a session. -/
def sessionId : IO String := do
  let bytes ← IO.getRandomBytes 16
  return String.ofList (bytes.toList.flatMap fun b => Json.hexByte b.toNat)

/-- Carries a command out and prints what it leaves behind. -/
def perform (command : Command) : IO UInt32 := do
  let known ← readPaths [] (command.query?.toList ++ command.config?.toList)
  let standardInput ← readStandardInput command
  let execution ← executeKnowing known standardInput (← sessionId) command
  let stderr ← IO.getStderr
  for record in execution.log do
    stderr.putStrLn record.line
  let stdout ← IO.getStdout
  stdout.putStr execution.output
  stdout.flush
  match execution.failure with
  | none => return 0
  | some fault =>
    stderr.putStrLn fault.text
    return 1

end HybridQuery

/-- Runs the command that the arguments name. -/
def main (arguments : List String) : IO UInt32 := do
  match HybridQuery.Command.parse arguments with
  | .ok command => HybridQuery.perform command
  | .error fault =>
    let text := fault.message
    if fault.exitCode = 0 then IO.println text else IO.eprintln text
    return UInt32.ofNat fault.exitCode
