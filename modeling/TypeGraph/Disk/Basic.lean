import TypeGraph.Disk.Path
import TypeGraph.Text.Quoted

/-!
# Disks

A disk says what stands at each path: a file with its bytes, a directory, or a fault.  It also lists
the contents of its files, so that no path leads to bytes outside that list.

**Results.**
* `Disk.read_mem`: what is read from a disk is one of its contents.
-/

namespace TypeGraph

/-- What stands at a path. -/
inductive DiskEntry where
  | file (bytes : List UInt8)
  | directory
  deriving DecidableEq, Repr

/-- Why nothing can be read at a path. -/
inductive DiskFault where
  | missing
  | notDirectory
  | isDirectory
  | nameTooLong
  | nullCharacter
  deriving DecidableEq, Repr

/-- A fault at a path. -/
structure DiskError where
  path : Path
  fault : DiskFault
  deriving DecidableEq, Repr

/-- The number and the wording of a fault of the system. -/
def DiskFault.system? : DiskFault → Option (Nat × String)
  | .missing => some (2, "No such file or directory")
  | .notDirectory => some (20, "Not a directory")
  | .isDirectory => some (21, "Is a directory")
  | .nameTooLong => some (36, "File name too long")
  | .nullCharacter => none

/-- The wording of a fault at a path. -/
def DiskError.message (e : DiskError) : String :=
  match e.fault.system? with
  | some (number, wording) => s!"[Errno {number}] {wording}: {Text.quoted e.path.text}"
  | none => "embedded null byte"

/-- What stands at each path. -/
structure Disk where
  entry : Path → Except DiskFault DiskEntry
  contents : List (List UInt8)
  entry_mem : ∀ path bytes, entry path = .ok (.file bytes) → bytes ∈ contents

namespace Disk

/-- A disk without files. -/
def empty : Disk :=
  ⟨fun _ => .error .missing, [], fun _ _ h => by simp at h⟩

/-- The entry at a path that may be absent; only a name that is too long is a fault here. -/
def lookup (disk : Disk) (path : Path) : Except DiskError (Option DiskEntry) :=
  match disk.entry path with
  | .ok entry => .ok (some entry)
  | .error .nameTooLong => .error ⟨path, .nameTooLong⟩
  | .error _ => .ok none

/-- A file stands at the path. -/
def isFile (disk : Disk) (path : Path) : Except DiskError Bool :=
  return match ← disk.lookup path with
    | some (.file _) => true
    | _ => false

/-- A directory stands at the path. -/
def isDirectory (disk : Disk) (path : Path) : Except DiskError Bool :=
  return match ← disk.lookup path with
    | some .directory => true
    | _ => false

/-- The bytes of the file at a path. -/
def read (disk : Disk) (path : Path) : Except DiskError (List UInt8) :=
  match disk.entry path with
  | .ok (.file bytes) => .ok bytes
  | .ok .directory => .error ⟨path, .isDirectory⟩
  | .error fault => .error ⟨path, fault⟩

/-- What is read from a disk is one of its contents. -/
theorem read_mem
    {disk : Disk}
    {path : Path}
    {bytes : List UInt8}
    (h : disk.read path = .ok bytes) :
    bytes ∈ disk.contents := by
  unfold read at h
  split at h
  · rename_i found hf
    cases h
    exact disk.entry_mem _ _ hf
  · cases h
  · cases h

end Disk
end TypeGraph
