import TypeGraph.Inheritance.Basic
import TypeGraph.Registry.Basic

/-!
# Remembered queries

The structural queries again, as questions to a registry that remembers their answers.  What depends
only on a type and what it extends is kept for ever; the implementations of an interface are kept
until the next commit.
-/

namespace TypeGraph

/-- The questions whose answers are remembered, each about the type of a full name. -/
inductive Question where
  | ancestors (fqn : String)
  | classInterfaces (fqn : String)
  | ownClosure (fqn : String)
  | dataType (fqn : String)
  | implementations (fqn : String)
  deriving DecidableEq, Repr

/-- The answer to a question. -/
@[reducible] def Question.Answer : Question → Type
  | .dataType _ => Bool
  | .ancestors _ | .classInterfaces _ | .ownClosure _ | .implementations _ => List String

/-- The registry of a type system. -/
abbrev TypeRegistry := Registry Question Question.Answer

/-- Questions to the registry of a type system. -/
abbrev Query := Registry.Asking Question Question.Answer

namespace Query

/-- An answer from the catalog alone. -/
def fromCatalog {α : Type} (compute : Catalog → Except Failure α) : Query α := fun r =>
  match compute r.catalog with
  | .error failure => .error failure
  | .ok answer => .ok (answer, r)

/-- The types of some full names. -/
def typesNamed (names : List String) : Query (List TypeDef) :=
  fromCatalog fun c => names.mapM c.typeNamed

/-- The base classes above a type, the nearest first. -/
def ancestorsOf (t : TypeDef) : Query (List String) :=
  Registry.remember .lasting (Question.ancestors t.fqn) (fromCatalog fun c => c.ancestorsOf t)

/-- The interfaces of a class. -/
def classInterfaces (t : TypeDef) : Query (List String) :=
  Registry.remember .lasting (Question.classInterfaces t.fqn) do
    let ancestors ← typesNamed (← ancestorsOf t)
    fromCatalog fun c => c.interfaceClosure ((t :: ancestors).flatMap TypeDef.interfaces)

/-- An interface and the interfaces it extends. -/
def ownClosure (t : TypeDef) : Query (List String) :=
  Registry.remember .lasting (Question.ownClosure t.fqn) (fromCatalog fun c => c.ownClosure t)

/-- The interfaces of a type, those it declares or with all that it inherits. -/
def interfacesOf (t : TypeDef) (inherited : Bool) : Query (List String) :=
  match t.kind, inherited with
  | .classKind, true => classInterfaces t
  | .interfaceKind, true => return (← ownClosure t).drop 1
  | _, _ => return t.interfaces

/-- A type is another one or inherits from it. -/
def extendsType (t other : TypeDef) : Query Bool :=
  match t.kind, other.kind with
  | .classKind, .classKind =>
      if other.fqn == t.fqn then return true
      else return (← ancestorsOf t).contains other.fqn
  | .classKind, .interfaceKind =>
      if other.fqn == t.fqn then return true
      else return (← classInterfaces t).contains other.fqn
  | .interfaceKind, .interfaceKind => return (← ownClosure t).contains other.fqn
  | .interfaceKind, _ => return false
  | _, _ => return other.fqn == t.fqn

/-- The type is an interface that inherits no methods. -/
def isDataType (t : TypeDef) : Query Bool :=
  match t.kind with
  | .interfaceKind =>
      Registry.remember .lasting (Question.dataType t.fqn) do
        let closure ← typesNamed (← ownClosure t)
        return closure.all fun i => i.methods.isEmpty
  | _ => return false

/-- The implementations of an interface in ascending order, and then the interface itself. -/
def implementations (t : TypeDef) : Query (List String) :=
  match t.kind with
  | .interfaceKind =>
      Registry.remember .current (Question.implementations t.fqn) do
        let types ← fromCatalog fun c => .ok c.types
        let classes ← (types.filter TypeDef.isClass).filterM fun other => extendsType other t
        let names := (classes.map TypeDef.fqn).mergeSort fun a b => decide (a ≤ b)
        return names ++ [t.fqn]
  | _ => return []

/-- The declarations whose members a type has, the most derived first. -/
def memberOwners (t : TypeDef) (inherited : Bool) : Query (List TypeDef) :=
  match t.kind, inherited with
  | .classKind, true => return t :: (← typesNamed (← ancestorsOf t))
  | .interfaceKind, true => do typesNamed (← ownClosure t)
  | _, _ => return [t]

/-- The methods of a type with their owners. -/
def methodsOf (t : TypeDef) (inherited : Bool) : Query (List (TypeDef × Method)) :=
  return collapseMethods (← memberOwners t inherited)

/-- The properties of a type with their owners. -/
def propertiesOf (t : TypeDef) (inherited : Bool) : Query (List (TypeDef × Property)) :=
  return collapseProperties (← memberOwners t inherited)

end Query
end TypeGraph
