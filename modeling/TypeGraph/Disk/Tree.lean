import TypeGraph.Disk.Basic

/-!
# File trees

A file tree holds the files and directories below a working directory.  A path is followed name by
name: every name but the last must be a directory, and a double dot leads to the directory above.
Above the working directory, and for absolute paths, only directories reached by double dots are
known; nothing else stands there.
-/

namespace TypeGraph

/-- The files and directories below a working directory, each by the names that lead to it. -/
structure FileTree where
  files : List (List String × List UInt8)
  directories : List (List String)

namespace FileTree

/-- No files and no directories. -/
def empty : FileTree :=
  ⟨[], []⟩

/-- The place that names lead to when every double dot takes the name before it away, and the
places passed on the way. -/
def placeOf (place : List String) (passed : List (List String)) :
    List String → List String × List (List String)
  | [] => (place, passed)
  | name :: rest =>
      let next := if name = ".." then place.dropLast else place ++ [name]
      placeOf next (next :: passed) rest

/-- Make a directory and the directories on the way to it. -/
def makeDirectory (tree : FileTree) (path : Path) : FileTree :=
  let (_, passed) := placeOf [] [] path.names
  { tree with directories := tree.directories ++ passed.reverse }

/-- Write a file, making the directories on the way to it. -/
def write (tree : FileTree) (path : Path) (bytes : List UInt8) : FileTree :=
  let (place, passed) := placeOf [] [] path.parent.names
  let file := place ++ path.names.drop (path.names.length - 1)
  { files := (file, bytes) :: tree.files
    directories := tree.directories ++ passed.reverse }

/-- What stands at a place. -/
def at? (tree : FileTree) (place : List String) : Option DiskEntry :=
  match tree.files.lookup place with
  | some bytes => some (.file bytes)
  | none => if place.isEmpty || tree.directories.contains place then some .directory else none

/-- The greatest length of a name, in bytes. -/
def maxName : Nat := 255

/-- The greatest length of a path, in bytes. -/
def maxPath : Nat := 4095

/-- Follow names outside the tree, where only directories above are known. -/
def walkOutside : List String → Except DiskFault DiskEntry
  | [] => .ok .directory
  | name :: rest =>
      if name = ".." then walkOutside rest
      else if maxName < name.utf8ByteSize then .error .nameTooLong
      else .error .missing

/-- Follow names from a directory of the tree. -/
def walk (tree : FileTree) (place : List String) : List String → Except DiskFault DiskEntry
  | [] => .ok .directory
  | name :: rest =>
      if name = ".." then
        if place.isEmpty then walkOutside rest else tree.walk place.dropLast rest
      else if maxName < name.utf8ByteSize then .error .nameTooLong
      else
        match tree.at? (place ++ [name]) with
        | none => .error .missing
        | some (.file bytes) => if rest.isEmpty then .ok (.file bytes) else .error .notDirectory
        | some .directory => tree.walk (place ++ [name]) rest

/-- What stands at a path. -/
def entry (tree : FileTree) (path : Path) : Except DiskFault DiskEntry :=
  if path.names.any fun name => name.toList.contains '\x00' then .error .nullCharacter
  else if maxPath < path.text.utf8ByteSize then .error .nameTooLong
  else if path.isAbsolute then walkOutside path.names
  else tree.walk [] path.names

/-- The contents of the files. -/
def contents (tree : FileTree) : List (List UInt8) :=
  tree.files.map Prod.snd

theorem walkOutside_ne_file
    (names : List String)
    (bytes : List UInt8) :
    walkOutside names ≠ .ok (.file bytes) := by
  induction names with
  | nil => simp [walkOutside]
  | cons name rest ih =>
      unfold walkOutside
      split
      · exact ih
      · split <;> simp

theorem at?_file_mem
    {tree : FileTree}
    {place : List String}
    {bytes : List UInt8}
    (h : tree.at? place = some (.file bytes)) :
    bytes ∈ tree.contents := by
  unfold at? at h
  split at h
  · rename_i found hf
    cases h
    have hm : (place, bytes) ∈ tree.files := by
      revert hf
      induction tree.files with
      | nil => simp
      | cons file rest ih =>
          obtain ⟨known, old⟩ := file
          intro hf
          by_cases hk : place = known
          · subst hk
            simp at hf
            simp [hf]
          · have hk' : (place == known) = false := by simpa using hk
            simp [List.lookup_cons, hk'] at hf
            exact List.mem_cons_of_mem _ (ih hf)
    exact List.mem_map.2 ⟨_, hm, rfl⟩
  · split at h <;> simp at h

theorem walk_file_mem
    {tree : FileTree}
    {bytes : List UInt8} :
    ∀ (names place : List String),
      tree.walk place names = .ok (.file bytes) → bytes ∈ tree.contents
  | [], place, h => by simp [walk] at h
  | name :: rest, place, h => by
      unfold walk at h
      split at h
      · split at h
        · exact absurd h (walkOutside_ne_file _ _)
        · exact walk_file_mem rest _ h
      · split at h
        · simp at h
        · split at h
          · simp at h
          · rename_i found hf
            split at h
            · cases h
              exact at?_file_mem hf
            · simp at h
          · exact walk_file_mem rest _ h

theorem entry_mem
    (tree : FileTree)
    (path : Path)
    (bytes : List UInt8)
    (h : tree.entry path = .ok (.file bytes)) :
    bytes ∈ tree.contents := by
  unfold entry at h
  split at h
  · simp at h
  · split at h
    · simp at h
    · split at h
      · exact absurd h (walkOutside_ne_file _ _)
      · exact walk_file_mem _ _ h

/-- The disk of a file tree. -/
def disk (tree : FileTree) : Disk :=
  ⟨tree.entry, tree.contents, tree.entry_mem⟩

end FileTree
end TypeGraph
