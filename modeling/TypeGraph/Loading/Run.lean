import TypeGraph.Inheritance.Recall
import TypeGraph.Loading.Batch

/-!
# The turn of a batch

A batch waits for its wave.  When the manifests of the wave are there the batch has its turn: it goes
on to its next wave, or, when no wave is left, what it has found is linked and committed.  Linking and
committing see one state of the registry, since nothing else happens during a turn.
-/

namespace TypeGraph

/-- A batch on its way, or ended with its assemblies or its failure. -/
inductive BatchState where
  | active (batch : Batch)
  | ended (result : Except Failure (List Manifest))

namespace Run

/-- A batch for which no wave is left is linked and committed. -/
def settle (registry : TypeRegistry) (d : Discovery) :
    TypeRegistry × Except Failure (List Manifest) :=
  match d.link registry.catalog with
  | .error failure => (registry, .error failure)
  | .ok linked =>
      match registry.commit linked d.rootNames with
      | (registry, .error failure) => (registry, .error failure)
      | (registry, .ok _) => (registry, d.rootNames.mapM registry.catalog.assemblyNamed)

/-- The turn of a batch with the manifests of its wave. -/
def proceed (registry : TypeRegistry) (b : Batch) (manifests : List Manifest) :
    TypeRegistry × BatchState :=
  match b.advance registry.catalog manifests with
  | .error failure => (registry, .ended (.error failure))
  | .ok next =>
      match next.wave, next.discovery with
      | [], some d =>
          let (registry, result) := settle registry d
          (registry, .ended result)
      | _, _ => (registry, .active next)

/-- The result of a batch. -/
def result : BatchState → Except Failure (List Manifest)
  | .ended result => result
  | .active _ => .error .endlessDependencies

end Run
end TypeGraph
