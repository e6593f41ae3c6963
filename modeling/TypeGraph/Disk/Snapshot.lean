import TypeGraph.Disk.Basic

/-!
# Snapshots

A snapshot remembers what was seen at some paths.  Nothing stands at the other paths as far as the
snapshot goes.

**Results.**
* `Snapshot.entry_add_self`: what was seen last at a path stands there.
-/

namespace TypeGraph

/-- What was seen at some paths; what was seen last comes first. -/
abbrev Snapshot := List (Path × Except DiskFault DiskEntry)

namespace Snapshot

/-- Remember what was seen at a path. -/
def add (s : Snapshot) (path : Path) (seen : Except DiskFault DiskEntry) : Snapshot :=
  (path, seen) :: s

/-- The path was looked at. -/
def knows (s : Snapshot) (path : Path) : Bool :=
  s.any fun entry => entry.1 == path

/-- What stands at a path as far as the snapshot goes. -/
def entry (s : Snapshot) (path : Path) : Except DiskFault DiskEntry :=
  (s.lookup path).getD (.error .missing)

/-- The contents of the files that were seen. -/
def contents (s : Snapshot) : List (List UInt8) :=
  s.filterMap fun entry =>
    match entry.2 with
    | .ok (.file bytes) => some bytes
    | _ => none

/-- What was seen last at a path stands there. -/
@[simp] theorem entry_add_self
    (s : Snapshot)
    (path : Path)
    (seen : Except DiskFault DiskEntry) :
    (s.add path seen).entry path = seen := by
  simp [add, entry]

theorem bytes_mem_of_entry
    (s : Snapshot)
    (path : Path)
    (bytes : List UInt8)
    (h : s.entry path = .ok (.file bytes)) :
    bytes ∈ s.contents := by
  induction s with
  | nil => simp [entry] at h
  | cons seen rest ih =>
      obtain ⟨known, found⟩ := seen
      by_cases hk : path = known
      · subst hk
        simp [entry] at h
        simp [contents, h]
      · have hk' : (path == known) = false := by simpa using hk
        have hr : entry rest path = .ok (.file bytes) := by
          simpa [entry, List.lookup_cons, hk'] using h
        have hm := ih hr
        simp only [contents, List.filterMap_cons]
        split
        · exact hm
        · exact List.mem_cons_of_mem _ hm

/-- The disk of a snapshot. -/
def disk (s : Snapshot) : Disk :=
  ⟨s.entry, s.contents, s.bytes_mem_of_entry⟩

end Snapshot
end TypeGraph
