import TypeGraph.Graph.Closure
import TypeGraph.Registry.Catalog

/-!
# Inheritance

The structural queries over a catalog.  A class inherits along its chain of bases, and classes and
interfaces along the interfaces they list.  Every query here is computed from the catalog alone; the
queries that remember their answers are built beside these.

**Results.**
* `Catalog.extends_self_of_class`: a class extends itself.
-/

namespace TypeGraph
namespace Catalog

/-- The bases of the committed types. -/
def baseLinks (c : Catalog) : Links :=
  c.types.map fun t => (t.fqn, t.base)

/-- The interfaces listed by the committed types. -/
def interfaceGraph (c : Catalog) : Graph :=
  c.types.map fun t => (t.fqn, t.interfaces)

/-- The base classes above a type, the nearest first; a chain that does not end at a class without a
base fails. -/
def ancestorsOf (c : Catalog) (t : TypeDef) : Except Failure (List String) :=
  match c.baseLinks.chain t.base with
  | (names, .top) => .ok names
  | (_, .unlisted name) => .error (.typeNotLoaded (.string name))
  | (_, .repeated name) => .error (.typeNotLoaded (.string name))

/-- The interfaces that can be reached from some names, breadth first. -/
def interfaceClosure (c : Catalog) (starts : List String) : Except Failure (List String) :=
  match c.interfaceGraph.closure starts with
  | .ok names => .ok names
  | .error name => .error (.typeNotLoaded (.string name))

/-- The interfaces of a class: those that it and its ancestors list, and all they extend. -/
def classInterfaces (c : Catalog) (t : TypeDef) : Except Failure (List String) := do
  let ancestors ← (← c.ancestorsOf t).mapM c.typeNamed
  c.interfaceClosure ((t :: ancestors).flatMap TypeDef.interfaces)

/-- An interface and the interfaces it extends. -/
def ownClosure (c : Catalog) (t : TypeDef) : Except Failure (List String) :=
  c.interfaceClosure [t.fqn]

/-- The interfaces of a type, those it declares or with all that it inherits. -/
def interfacesOf (c : Catalog) (t : TypeDef) (inherited : Bool) : Except Failure (List String) :=
  match t.kind, inherited with
  | .classKind, true => c.classInterfaces t
  | .interfaceKind, true => return (← c.ownClosure t).drop 1
  | _, _ => return t.interfaces

/-- A type is another one or inherits from it. -/
def extendsType (c : Catalog) (t other : TypeDef) : Except Failure Bool :=
  match t.kind, other.kind with
  | .classKind, .classKind =>
      if other.fqn == t.fqn then return true
      else return (← c.ancestorsOf t).contains other.fqn
  | .classKind, .interfaceKind =>
      if other.fqn == t.fqn then return true
      else return (← c.classInterfaces t).contains other.fqn
  | .interfaceKind, .interfaceKind => return (← c.ownClosure t).contains other.fqn
  | .interfaceKind, _ => return false
  | _, _ => return other.fqn == t.fqn

/-- Neither an interface nor anything it extends declares a method; no other type is a data type. -/
def isDataType (c : Catalog) (t : TypeDef) : Except Failure Bool :=
  match t.kind with
  | .interfaceKind => do
      let closure ← (← c.ownClosure t).mapM c.typeNamed
      return closure.all fun i => i.methods.isEmpty
  | _ => return false

/-- The classes that implement an interface in ascending order, and then the interface itself. -/
def implementations (c : Catalog) (t : TypeDef) : Except Failure (List String) :=
  match t.kind with
  | .interfaceKind => do
      let classes ← (c.types.filter TypeDef.isClass).filterM fun other => c.extendsType other t
      let names := (classes.map TypeDef.fqn).mergeSort fun a b => decide (a ≤ b)
      return names ++ [t.fqn]
  | _ => return []

/-- The declarations whose members a type has, the most derived first: a class and its ancestors, an
interface and what it extends. -/
def memberOwners (c : Catalog) (t : TypeDef) (inherited : Bool) : Except Failure (List TypeDef) :=
  match t.kind, inherited with
  | .classKind, true => return t :: (← (← c.ancestorsOf t).mapM c.typeNamed)
  | .interfaceKind, true => do (← c.ownClosure t).mapM c.typeNamed
  | _, _ => return [t]

/-- A class extends itself. -/
theorem extends_self_of_class
    (c : Catalog)
    {t : TypeDef}
    (h : t.kind = .classKind) :
    c.extendsType t t = .ok true := by
  simp [extendsType, h, pure, Except.pure]

end Catalog

section Members

/-- Members paired with their owners, without those whose name came before. -/
def keepFirst {α : Type} (name : α → String) (seen : List String) :
    List (TypeDef × α) → List (TypeDef × α)
  | [] => []
  | (owner, member) :: rest =>
      if seen.contains (name member) then keepFirst name seen rest
      else (owner, member) :: keepFirst name (name member :: seen) rest

/-- The members of several owners, each name once and with the first owner that declares it. -/
def collapse {α : Type} (name : α → String) (members : TypeDef → List α) (owners : List TypeDef) :
    List (TypeDef × α) :=
  keepFirst name [] (owners.flatMap fun owner => (members owner).map fun member => (owner, member))

/-- The methods of some owners. -/
def collapseMethods : List TypeDef → List (TypeDef × Method) :=
  collapse Method.name TypeDef.methods

/-- The properties of some owners. -/
def collapseProperties : List TypeDef → List (TypeDef × Property) :=
  collapse Property.name TypeDef.properties

end Members

namespace Catalog

/-- The methods of a type with their owners, those it declares or with all that it inherits. -/
def methodsOf (c : Catalog) (t : TypeDef) (inherited : Bool) :
    Except Failure (List (TypeDef × Method)) :=
  return collapseMethods (← c.memberOwners t inherited)

/-- The properties of a type with their owners, those it declares or with all that it inherits. -/
def propertiesOf (c : Catalog) (t : TypeDef) (inherited : Bool) :
    Except Failure (List (TypeDef × Property)) :=
  return collapseProperties (← c.memberOwners t inherited)

end Catalog
end TypeGraph
