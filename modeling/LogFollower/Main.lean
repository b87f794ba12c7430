import LogFollower.Program.Follow

/-!
# The command on real files

The library works on a `FileSystem`. This loop keeps one that holds the followed path alone, brings
it up to date before every look and prints what comes.
-/

namespace LogFollower.Main

/-- What is at a path. -/
inductive Sight
  | nothing
  | file (bytes : Bytes)
  /-- Something that cannot be read. -/
  | other

/-- The changes that bring the path to what was seen there. A file keeps its identity as long as it
is never seen to be away. -/
def Sight.edits (path : Path) : Sight → List Edit
  | nothing => [.remove path, .removeDirectory path]
  | file bytes => [.removeDirectory path, .create path, .append path bytes]
  | other => [.remove path, .makeDirectory path]

/-- The directories that a path goes through. -/
def surroundings (path : Path) : FileSystem :=
  let body := path.parts.2
  let above := (List.range body.length).map fun n => Path.ofParts path.parts.1 (body.take n)
  (above.map Edit.makeDirectory).foldl FileSystem.edit .empty

def look (path : String) : IO Sight := do
  try
    let bytes ← IO.FS.readBinFile path
    return .file bytes.data.toList
  catch
    | .noFileOrDirectory _ _ _ => return .nothing
    | _ => return .other

/-- The files with the path brought up to date. -/
def refresh (a : Arguments) (fs : FileSystem) : IO FileSystem := do
  let sight ← look a.path
  return (sight.edits (.ofString a.path)).foldl FileSystem.edit fs

def print : Printed → IO Unit
  | .out s => do
    IO.println s
    (← IO.getStdout).flush
  | .err s => IO.eprintln s

/-- Follows the path until the stream ends. -/
partial def follow (a : Arguments) (fs : FileSystem) (t : Tailer) : IO UInt32 := do
  let fs ← refresh a fs
  let now ← IO.monoMsNow
  let (lines, ended, t) := (t.settle fs now).receive none
  for line in lines do
    print (Follow.format a line)
  if ended then return 0
  if lines.isEmpty then
    IO.sleep (UInt32.ofNat (t.wakeTime.getD now - now))
  follow a fs t

end LogFollower.Main

def main (arguments : List String) : IO UInt32 := do
  match LogFollower.Arguments.parse arguments with
  | .error f =>
    let outcome := LogFollower.Follow.refuse f
    IO.print outcome.out
    return UInt32.ofNat outcome.exitCode
  | .ok a =>
    let fs ← LogFollower.Main.refresh a (LogFollower.Main.surroundings (.ofString a.path))
    match LogFollower.Tailer.start fs (.ofString a.path) a.config with
    | .error e =>
      LogFollower.Main.print (LogFollower.Follow.startFailure a e)
      return 1
    | .ok t => LogFollower.Main.follow a fs t
