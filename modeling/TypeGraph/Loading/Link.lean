import TypeGraph.Graph.Closure
import TypeGraph.Graph.Order
import TypeGraph.Registry.Catalog

/-!
# Linking

Before a batch of assemblies is committed it is checked against itself and the catalog: no full name
is declared twice; every mention of a type leads to a type of the assembly itself or of one of its
dependencies, at any depth; a base is a class and a listed interface an interface; and nothing
inherits from itself.  The checks are made in this order, each over the whole batch, and the first
fault found is the failure.

**Results.**
* `checkAll_eq_ok_iff`: a list of checks passes exactly when each of them does.
-/

namespace TypeGraph

section CheckAll

variable {α ε : Type}

/-- Make a check of each element, up to the first that fails. -/
def checkAll (check : α → Except ε Unit) : List α → Except ε Unit
  | [] => .ok ()
  | x :: rest =>
      match check x with
      | .error fault => .error fault
      | .ok _ => checkAll check rest

/-- A list of checks passes exactly when each of them does. -/
theorem checkAll_eq_ok_iff
    {check : α → Except ε Unit}
    {xs : List α} :
    checkAll check xs = .ok () ↔ ∀ x ∈ xs, check x = .ok () := by
  induction xs with
  | nil => simp [checkAll]
  | cons x rest ih =>
      cases h : check x with
      | error fault => simp [checkAll, h]
      | ok u => simp [checkAll, h, ih]

end CheckAll

namespace Linking

/-- The types of a batch, each with the assembly that declares it. -/
def declarations (batch : List Manifest) : List (String × TypeDef) :=
  batch.flatMap fun m => m.types.map fun t => (m.name, t)

/-- The types of a batch and of a catalog. -/
def knownTypes (c : Catalog) (batch : List Manifest) : List TypeDef :=
  batch.flatMap Manifest.types ++ c.types

/-- The assemblies of a batch and of a catalog with the dependencies they declare. -/
def dependencyGraph (c : Catalog) (batch : List Manifest) : Graph :=
  (batch ++ c.assemblies).map fun m => (m.name, m.dependencyNames)

/-- The assembly that declared a full name before, in the batch or in the catalog. -/
def declaredBefore (c : Catalog) (staged : List TypeDef) (fqn : String) : Option String :=
  match staged.find? fun t => t.fqn == fqn with
  | some t => some t.assembly
  | none => (c.type? fqn).map TypeDef.assembly

/-- No full name is declared twice; `staged` holds the types before. -/
def checkUnique (c : Catalog) (staged : List TypeDef) :
    List (String × TypeDef) → Except Failure Unit
  | [] => .ok ()
  | (assembly, t) :: rest =>
      match declaredBefore c staged t.fqn with
      | some other => .error (.duplicateFqn t.fqn other assembly)
      | none => checkUnique c (t :: staged) rest

/-- The kind of the target of a site fits its place. -/
def checkKind (assembly : String) (t : TypeDef) (site : Site) (target : TypeDef) :
    Except Failure Unit :=
  match site.place with
  | .base =>
      if target.kind = .classKind then .ok ()
      else .error (.baseNotClass assembly t.fqn target.kind)
  | .interfaces =>
      if target.kind = .interfaceKind then .ok ()
      else .error (.entryNotInterface assembly t.fqn target.kind site.target)
  | _ => .ok ()

/-- A site leads to a type of one of the `visible` assemblies and of a fitting kind. -/
def checkSite (types : List TypeDef) (visible : List String) (assembly : String) (t : TypeDef)
    (site : Site) : Except Failure Unit :=
  match types.find? fun target => target.fqn == site.target with
  | none => .error (.unresolvedReference assembly t.fqn site)
  | some target =>
      if visible.contains target.assembly then checkKind assembly t site target
      else .error (.unresolvedReference assembly t.fqn site)

/-- Every site of an assembly leads to a type of it or of one of its dependencies. -/
def checkReferences (c : Catalog) (batch : List Manifest) (m : Manifest) : Except Failure Unit :=
  match (dependencyGraph c batch).closure [m.name] with
  | .error name => .error (.assemblyNotLoaded (.string name))
  | .ok visible =>
      checkAll (fun t => checkAll (checkSite (knownTypes c batch) visible m.name t) t.sites) m.types

/-- A type does not inherit from itself. -/
def checkInheritance (types : List TypeDef) (t : TypeDef) : Except Failure Unit :=
  match t.kind with
  | .classKind =>
      let links : Links := types.map fun t => (t.fqn, t.base)
      match links.chain (some t.fqn) with
      | (names, .repeated name) => .error (.classCycle t.assembly t.fqn (names ++ [name]))
      | _ => .ok ()
  | .interfaceKind =>
      let graph : Graph := types.map fun t => (t.fqn, t.interfaces)
      match graph.order [t.fqn] with
      | .error path => .error (.interfaceCycle t.assembly (path.getLastD t.fqn) path)
      | .ok _ => .ok ()
  | .enumKind => .ok ()

/-- The checks of a batch against itself and a catalog. -/
def check (c : Catalog) (batch : List Manifest) : Except Failure Unit := do
  checkUnique c [] (declarations batch)
  checkAll (checkReferences c batch) batch
  checkAll (checkInheritance (knownTypes c batch)) (batch.flatMap Manifest.types)

end Linking
end TypeGraph
