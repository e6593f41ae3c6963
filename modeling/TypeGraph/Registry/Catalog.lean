import TypeGraph.Failure

/-!
# Catalogs

A catalog holds the committed assemblies in the order of their commits, their types, and the names
of the assemblies that were asked for by name.  Writing an assembly or a type whose name is known
replaces it where it stands.
-/

namespace TypeGraph

/-- The committed assemblies and types. -/
structure Catalog where
  assemblies : List Manifest
  types : List TypeDef
  rootNames : List String

namespace Catalog

/-- Nothing is committed. -/
def empty : Catalog :=
  ⟨[], [], []⟩

/-- The assembly of a name. -/
def assembly? (c : Catalog) (name : String) : Option Manifest :=
  c.assemblies.find? fun m => m.name == name

/-- The assembly is committed. -/
def hasAssembly (c : Catalog) (name : String) : Bool :=
  c.assemblies.any fun m => m.name == name

/-- The type of a full name. -/
def type? (c : Catalog) (fqn : String) : Option TypeDef :=
  c.types.find? fun t => t.fqn == fqn

/-- The assembly is a root. -/
def isRoot (c : Catalog) (name : String) : Bool :=
  c.rootNames.contains name

/-- The roots, in the order of their commits. -/
def roots (c : Catalog) : List Manifest :=
  c.assemblies.filter fun m => c.isRoot m.name

/-- The assembly that a key names; a key that is not a text names none. -/
def assemblyAt? (c : Catalog) (key : Json) : Option Manifest :=
  key.string?.bind c.assembly?

/-- The type that a key names; a key that is not a text names none. -/
def typeAt? (c : Catalog) (key : Json) : Option TypeDef :=
  key.string?.bind c.type?

/-- The assembly that a key names, or the failure to find it. -/
def findAssembly (c : Catalog) (key : Json) : Except Failure Manifest :=
  match c.assemblyAt? key with
  | some m => .ok m
  | none => .error (.assemblyNotLoaded key)

/-- The type that a key names, or the failure to find it. -/
def findType (c : Catalog) (key : Json) : Except Failure TypeDef :=
  match c.typeAt? key with
  | some t => .ok t
  | none => .error (.typeNotLoaded key)

/-- The type of a full name, or the failure to find it. -/
def typeNamed (c : Catalog) (fqn : String) : Except Failure TypeDef :=
  c.findType (.string fqn)

/-- The assembly of a name, or the failure to find it. -/
def assemblyNamed (c : Catalog) (name : String) : Except Failure Manifest :=
  c.findAssembly (.string name)

/-- The type of one kind that a key names, or the failure to find it. -/
def findKind (c : Catalog) (wanted : TypeKind) (key : Json) : Except Failure TypeDef := do
  let t ← c.findType key
  if t.kind = wanted then return t else throw (.otherKind t.fqn t.kind wanted)

/-- The assemblies that an assembly declares as its dependencies. -/
def dependencies (c : Catalog) (m : Manifest) : Except Failure (List Manifest) :=
  m.dependencyNames.mapM c.assemblyNamed

/-- Write an assembly. -/
def putAssembly (m : Manifest) : List Manifest → List Manifest
  | [] => [m]
  | known :: rest => if known.name == m.name then m :: rest else known :: putAssembly m rest

/-- Write a type. -/
def putType (t : TypeDef) : List TypeDef → List TypeDef
  | [] => [t]
  | known :: rest => if known.fqn == t.fqn then t :: rest else known :: putType t rest

/-- Add one assembly with its types. -/
def add (c : Catalog) (m : Manifest) : Catalog :=
  { c with
    assemblies := putAssembly m c.assemblies
    types := m.types.foldl (fun types t => putType t types) c.types }

/-- Make a committed assembly a root. -/
def promote (c : Catalog) (name : String) : Except Failure Catalog :=
  if !c.hasAssembly name then .error (.assemblyNotLoaded (.string name))
  else if c.isRoot name then .ok c
  else .ok { c with rootNames := c.rootNames ++ [name] }

/-- Make names roots one after the other, up to the first that is not committed. -/
def promoteAll (c : Catalog) : List String → Catalog × Except Failure Unit
  | [] => (c, .ok ())
  | name :: rest =>
      match c.promote name with
      | .error failure => (c, .error failure)
      | .ok promoted => promoteAll promoted rest

/-- Add a batch of assemblies and make some names roots.  What was written before a name that is not
committed stays written. -/
def commit (c : Catalog) (batch : List Manifest) (roots : List String) :
    Catalog × Except Failure Unit :=
  promoteAll (batch.foldl add c) roots

end Catalog

namespace Manifest

/-- The type of the assembly that a key names, or the failure to find it. -/
def findType (m : Manifest) (key : Json) : Except Failure TypeDef :=
  match key.string?.bind fun fqn => m.types.find? fun t => t.fqn == fqn with
  | some t => .ok t
  | none => .error (.notDeclared m.name key)

end Manifest
end TypeGraph
