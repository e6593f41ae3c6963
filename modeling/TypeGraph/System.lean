import TypeGraph.Loading.Loop

/-!
# Type systems

A type system owns a registry, fills it by loading roots with everything they depend on, and answers
questions about what is loaded.  Each load runs in an event loop of its own and takes with it what it
leaves in flight; loads that share a loop share a `Loader`.
-/

namespace TypeGraph

/-- A type system: its registry. -/
structure TypeSystem where
  registry : TypeRegistry

/-- How a load ended: the identifiers it asked its resolver for, and its result. -/
structure Loaded (α : Type) where
  requests : List String
  result : α

namespace TypeSystem

/-- Nothing is loaded. -/
def empty : TypeSystem :=
  ⟨.empty⟩

/-- The committed assemblies and types. -/
def catalog (s : TypeSystem) : Catalog :=
  s.registry.catalog

/-- Load the roots of several groups together; each group has its assemblies in the order of its
identifiers, or its failure. -/
def loadTogether (s : TypeSystem) (resolver : Resolver) (limit : Option Number)
    (groups : List (List String)) :
    TypeSystem × Loaded (List (Except Failure (List Manifest))) :=
  let loader := Loop.complete resolver limit s.registry groups
  (⟨loader.registry⟩, ⟨loader.requests, loader.results⟩)

/-- Load some roots; all of them are committed or none. -/
def loadRoots (s : TypeSystem) (resolver : Resolver) (limit : Option Number)
    (identifiers : List String) : TypeSystem × Loaded (Except Failure (List Manifest)) :=
  let (after, loaded) := s.loadTogether resolver limit [identifiers]
  (after, ⟨loaded.requests, loaded.result.headD (.error .endlessDependencies)⟩)

/-- Load some roots for the type system itself. -/
def loadAll (s : TypeSystem) (resolver : Resolver) (limit : Option Number)
    (identifiers : List String) : TypeSystem × Loaded (Except Failure Unit) :=
  let (after, loaded) := s.loadRoots resolver limit identifiers
  (after, ⟨loaded.requests, loaded.result.map fun _ => ()⟩)

/-- Load one root. -/
def load (s : TypeSystem) (resolver : Resolver) (limit : Option Number) (identifier : String) :
    TypeSystem × Loaded (Except Failure Manifest) :=
  let (after, loaded) := s.loadRoots resolver limit [identifier]
  (after, ⟨loaded.requests, loaded.result.bind fun found =>
    match found with
    | m :: _ => .ok m
    | [] => .error .endlessDependencies⟩)

/-- Make a committed assembly a root. -/
def promoteRoot (s : TypeSystem) (name : String) : Except Failure TypeSystem :=
  match s.registry.promote name with
  | .error failure => .error failure
  | .ok registry => .ok { s with registry := registry }

/-- Ask a question; what is remembered with its answer stays with the type system. -/
def ask {α : Type} (s : TypeSystem) (question : Query α) : TypeSystem × Except Failure α :=
  match question s.registry with
  | .error failure => (s, .error failure)
  | .ok (answer, registry) => ({ s with registry := registry }, .ok answer)

end TypeSystem
end TypeGraph
