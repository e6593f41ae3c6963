import TypeGraph.CommandLine.Program
import TypeGraph.Disk.Snapshot

/-!
# The executable

The files that a run looks at are read first, and then the run is computed from what was seen.
-/

namespace TypeGraph
namespace Executable

/-- The code of an error of the system, which may be given with a minus. -/
def isCode (wanted code : UInt32) : Bool :=
  code == wanted || code == 0 - wanted

/-- The fault of a failed attempt to read. -/
def faultOf : IO.Error → DiskFault
  | .inappropriateType _ code _ => if isCode 21 code then .isDirectory else .notDirectory
  | .invalidArgument _ code _ => if isCode 36 code then .nameTooLong else .nullCharacter
  | _ => .missing

/-- Look at a path. -/
def look (path : Path) : IO (Except DiskFault DiskEntry) := do
  try
    let bytes ← IO.FS.readBinFile path.text
    return .ok (.file bytes.toList)
  catch error =>
    match faultOf error with
    | .isDirectory => return .ok .directory
    | fault => return .error fault

/-- Look at the paths of a run until it leads to no further ones. -/
partial def explore (arguments : List String) (seen : Snapshot) : IO Snapshot := do
  match (CommandLine.pathsOf seen.disk arguments).filter fun path => !seen.knows path with
  | [] => return seen
  | paths =>
      let mut seen := seen
      for path in paths do
        seen := seen.add path (← look path)
      explore arguments seen

end Executable
end TypeGraph

/-- Run the program on the files of the working directory. -/
def main (arguments : List String) : IO UInt32 := do
  let seen ← TypeGraph.Executable.explore arguments []
  match TypeGraph.CommandLine.run seen.disk arguments with
  | .error fault =>
      IO.eprintln fault.message
      return 1
  | .ok outcome =>
      IO.print outcome.stdout
      IO.eprint outcome.stderr
      return UInt32.ofNat outcome.exit
