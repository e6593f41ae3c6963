import TypeGraph.Loading.Link

/-!
# Batches

A batch is one request for some roots, on its way.  It first waits for the manifests of the roots
that are not committed, and then, wave by wave, for the dependencies that those declare and that are
neither committed nor asked for by the batch before.  When no wave is left the assemblies it has
found are put in dependency order, linked, and committed together.

An identifier may lead to a manifest of another name where it is a root, but not where it is a
dependency.  Assemblies that other batches have committed meanwhile are left out.
-/

namespace TypeGraph

/-- What a batch has learned from its roots on: the assemblies found, in the order of discovery, the
names it has asked for as dependencies or found as roots, and the names of its roots. -/
structure Discovery where
  found : List Manifest
  requested : List String
  rootNames : List String

/-- A request for some roots: their identifiers, the identifiers it waits for, what it has learned
once the roots are there, and every identifier it has waited for. -/
structure Batch where
  identifiers : List String
  wave : List String
  discovery : Option Discovery
  touched : List String

namespace Discovery

/-- The assembly is among those found. -/
def hasFound (found : List Manifest) (name : String) : Bool :=
  found.any fun m => m.name == name

/-- Add the dependencies of some manifests that are neither requested nor committed to a wave. -/
def extendWave (c : Catalog) : (wave requested : List String) → (names : List String) →
    List String × List String
  | wave, requested, [] => (wave, requested)
  | wave, requested, name :: rest =>
      if requested.contains name || c.hasAssembly name then extendWave c wave requested rest
      else extendWave c (wave ++ [name]) (requested ++ [name]) rest

/-- The next wave after some manifests, and the names requested with it. -/
def nextWave (c : Catalog) (requested : List String) (manifests : List Manifest) :
    List String × List String :=
  extendWave c [] requested (manifests.flatMap Manifest.dependencyNames)

/-- The root manifests that are neither committed nor found before, the first of each name. -/
def foundRoots (c : Catalog) (found : List Manifest) : List Manifest → List Manifest
  | [] => found
  | m :: rest =>
      if hasFound found m.name || c.hasAssembly m.name then foundRoots c found rest
      else foundRoots c (found ++ [m]) rest

/-- The manifests of a wave of dependencies, each of which declares the name it was asked for. -/
def addWave (c : Catalog) (found : List Manifest) :
    List (String × Manifest) → Except Failure (List Manifest)
  | [] => .ok found
  | (name, m) :: rest =>
      if m.name = name then
        addWave c (if c.hasAssembly name then found else found ++ [m]) rest
      else .error (.nameMismatch name m.name)

end Discovery

namespace Batch

/-- The identifiers of a request that are not committed, each once. -/
def firstWave (c : Catalog) (identifiers : List String) : List String :=
  (identifiers.filter fun identifier => !c.hasAssembly identifier).eraseDups

/-- A request that waits for its roots. -/
def start (c : Catalog) (identifiers : List String) : Batch :=
  let wave := firstWave c identifiers
  ⟨identifiers, wave, none, wave⟩

/-- What a batch learns when the manifests of its roots are there. -/
def discoverRoots (c : Catalog) (b : Batch) (manifests : List Manifest) : Batch :=
  let names := b.wave.zip (manifests.map Manifest.name)
  let rootNames := b.identifiers.map fun identifier => (names.lookup identifier).getD identifier
  let found := Discovery.foundRoots c [] manifests
  let (wave, requested) := Discovery.nextWave c (found.map Manifest.name) found
  { b with
    wave := wave
    discovery := some ⟨found, requested, rootNames⟩
    touched := b.touched ++ wave }

/-- What a batch learns when the manifests of a wave of dependencies are there. -/
def discoverDependencies (c : Catalog) (b : Batch) (d : Discovery) (manifests : List Manifest) :
    Except Failure Batch :=
  match Discovery.addWave c d.found (b.wave.zip manifests) with
  | .error failure => .error failure
  | .ok found =>
      let (wave, requested) := Discovery.nextWave c d.requested manifests
      .ok { b with
        wave := wave
        discovery := some ⟨found, requested, d.rootNames⟩
        touched := b.touched ++ wave }

/-- What a batch learns when the manifests it waits for are there. -/
def advance (c : Catalog) (b : Batch) (manifests : List Manifest) : Except Failure Batch :=
  match b.discovery with
  | none => .ok (b.discoverRoots c manifests)
  | some d => b.discoverDependencies c d manifests

end Batch

namespace Discovery

/-- The assemblies found that are not committed, in dependency order and linked. -/
def link (c : Catalog) (d : Discovery) : Except Failure (List Manifest) :=
  let fresh := d.found.filter fun m => !c.hasAssembly m.name
  let graph : Graph := fresh.map fun m => (m.name, m.dependencyNames)
  match graph.order (fresh.map Manifest.name) with
  | .error path => .error (.dependencyCycle path)
  | .ok names =>
      let ordered := names.filterMap fun name => fresh.find? fun m => m.name == name
      match Linking.check c ordered with
      | .error failure => .error failure
      | .ok _ => .ok ordered

end Discovery
end TypeGraph
