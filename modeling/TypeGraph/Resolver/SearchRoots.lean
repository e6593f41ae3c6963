import TypeGraph.Disk.Basic
import TypeGraph.Resolver.Basic
import TypeGraph.Sources

/-!
# Search roots

Manifests on a disk are looked for in this order: an identifier that is a file, the manifest file of
an identifier that is a directory, and then for each root the manifest file in the directory of that
name and the file of that name with the ending `.json`.

**Results.**
* `SearchRoots.locate_isFile`, `SearchRoots.identifier_of_nowhere`: what is located is a file, and what
  is not is the identifier that was looked for.
-/

namespace TypeGraph
namespace SearchRoots

/-- The places of an identifier itself. -/
def direct (disk : Disk) (manifestFile identifier : String) : Except DiskError (List Path) := do
  let path := Path.ofText identifier
  if ← disk.isFile path then return [path]
  else if ← disk.isDirectory path then return [path.child manifestFile]
  else return []

/-- The places of an identifier below a root. -/
def below (manifestFile identifier : String) (root : Path) : List Path :=
  [(root.child identifier).child manifestFile, root.child (identifier ++ ".json")]

/-- The places where an identifier is looked for, in order. -/
def candidates (disk : Disk) (options : LoadOptions) (identifier : String) :
    Except DiskError (List Path) :=
  return (← direct disk options.manifestFile identifier) ++
    options.searchRoots.flatMap (below options.manifestFile identifier)

/-- All paths that are looked at for an identifier, whatever stands at them. -/
def places (options : LoadOptions) (identifier : String) : List Path :=
  let path := Path.ofText identifier
  path :: path.child options.manifestFile ::
    options.searchRoots.flatMap (below options.manifestFile identifier)

/-- The first of some places where a file stands. -/
def firstFile (disk : Disk) : List Path → Except DiskError (Option Path)
  | [] => .ok none
  | path :: rest => do
      if ← disk.isFile path then return some path else firstFile disk rest

/-- Why an identifier is not located. -/
inductive LocateFault where
  | disk (error : DiskError)
  | nowhere (identifier : String) (searched : List Path)

/-- The place of the manifest of an identifier. -/
def locate (disk : Disk) (options : LoadOptions) (identifier : String) :
    Except LocateFault Path := do
  let places ← (candidates disk options identifier).mapError .disk
  match ← (firstFile disk places).mapError .disk with
  | some path => return path
  | none => throw (.nowhere identifier places)

/-- The failure of an identifier that is located nowhere. -/
def nowhereFailure (identifier : String) (searched : List Path) : Failure :=
  .notLocated identifier (searched.map Path.text)

/-- The answer to an identifier. -/
def answer (disk : Disk) (options : LoadOptions) (identifier : String) : Answer :=
  match locate disk options identifier with
  | .error (.disk error) => .ioError error.message
  | .error (.nowhere identifier searched) => .failure (nowhereFailure identifier searched)
  | .ok path =>
      match disk.read path with
      | .error error => .ioError error.message
      | .ok bytes => .source (.bytes bytes)

/-- The names that the manifests on a disk declare. -/
def declaredNames (disk : Disk) : List String :=
  disk.contents.filterMap fun bytes =>
    match Manifest.decode (.bytes bytes) with
    | .ok m => some m.name
    | .error _ => none

theorem mem_declaredNames
    {disk : Disk}
    {options : LoadOptions}
    {identifier : String}
    {source : Source}
    {m : Manifest}
    (h : answer disk options identifier = .source source)
    (hd : Manifest.decode source = .ok m)
    (hname : m.name = identifier) :
    identifier ∈ declaredNames disk := by
  unfold answer at h
  split at h <;> try simp at h
  split at h <;> try simp at h
  rename_i bytes hread
  subst h
  exact List.mem_filterMap.2 ⟨bytes, Disk.read_mem hread, by simp [hd, hname]⟩

/-- The resolver of a disk. -/
def resolver (disk : Disk) (options : LoadOptions) : Resolver :=
  { answer := answer disk options
    waits := true
    names := declaredNames disk
    complete := fun _ _ _ => mem_declaredNames }

theorem firstFile_isFile
    {disk : Disk}
    {places : List Path}
    {path : Path}
    (h : firstFile disk places = .ok (some path)) :
    disk.isFile path = .ok true := by
  induction places with
  | nil => simp [firstFile] at h
  | cons place rest ih =>
      cases hf : disk.isFile place with
      | error e => simp [firstFile, hf, bind, Except.bind] at h
      | ok found =>
          cases found with
          | true =>
              simp [firstFile, hf, bind, Except.bind, pure, Except.pure] at h
              exact h ▸ hf
          | false =>
              simp [firstFile, hf, bind, Except.bind] at h
              exact ih h

/-- What the place of a manifest is, when its candidates are known. -/
theorem locate_eq
    (disk : Disk)
    (options : LoadOptions)
    (identifier : String) :
    locate disk options identifier =
      match candidates disk options identifier with
      | .error error => .error (.disk error)
      | .ok places =>
          match firstFile disk places with
          | .error error => .error (.disk error)
          | .ok (some path) => .ok path
          | .ok none => .error (.nowhere identifier places) := by
  unfold locate
  cases candidates disk options identifier with
  | error error => rfl
  | ok places =>
      change ((firstFile disk places).mapError LocateFault.disk >>= _) =
        match firstFile disk places with
        | .error error => .error (.disk error)
        | .ok (some path) => .ok path
        | .ok none => .error (.nowhere identifier places)
      cases firstFile disk places with
      | error error => rfl
      | ok found => cases found <;> rfl

/-- What is located is a file. -/
theorem locate_isFile
    {disk : Disk}
    {options : LoadOptions}
    {identifier : String}
    {path : Path}
    (h : locate disk options identifier = .ok path) :
    disk.isFile path = .ok true := by
  rw [locate_eq] at h
  split at h <;> try cases h
  split at h <;> cases h
  exact firstFile_isFile ‹_›

/-- What is located nowhere is the identifier that was looked for. -/
theorem identifier_of_nowhere
    {disk : Disk}
    {options : LoadOptions}
    {identifier other : String}
    {searched : List Path}
    (h : locate disk options identifier = .error (.nowhere other searched)) :
    other = identifier := by
  rw [locate_eq] at h
  split at h <;> try cases h
  split at h <;> cases h
  rfl

end SearchRoots
end TypeGraph
