import TypeGraph.TypeRef.Basic

/-!
# Manifests

A manifest describes one assembly: its name and version, the assemblies it depends on, and the
types it declares.  References to other types are still names here; a load links them.

Classes and interfaces share their members and extend by listing interfaces; a class may have a base
class and an initializer besides; an enum has named members only.
-/

namespace TypeGraph

/-- The documentation of a declaration. -/
structure Docs where
  summary : Option String
  remarks : Option String
  deprecated : Option String
  stability : Option String
  deriving DecidableEq, Repr

/-- No documentation. -/
def Docs.empty : Docs :=
  ⟨none, none, none, none⟩

/-- A declared dependency; the version range is for information only. -/
structure Dependency where
  name : String
  version : Option String
  deriving DecidableEq, Repr

/-- A parameter of a method or an initializer. -/
structure Parameter where
  name : String
  type : TypeRef
  isOptional : Bool
  isVariadic : Bool

/-- A list of parameters takes any number of arguments when its last one does. -/
def Parameter.anyVariadic (parameters : List Parameter) : Bool :=
  match parameters.getLast? with
  | some last => last.isVariadic
  | none => false

/-- A method; one that returns nothing has no type. -/
structure Method where
  name : String
  parameters : List Parameter
  returns : Option TypeRef
  returnsOptional : Bool
  isStatic : Bool
  isAbstract : Bool
  isAsync : Bool
  isProtected : Bool
  docs : Docs

/-- The initializer of a class. -/
structure Initializer where
  parameters : List Parameter
  isProtected : Bool
  docs : Docs

/-- A property of a class or an interface. -/
structure Property where
  name : String
  type : TypeRef
  isOptional : Bool
  isImmutable : Bool
  isStatic : Bool
  isAbstract : Bool
  isProtected : Bool
  docs : Docs

/-- A member of an enum. -/
structure EnumMember where
  name : String
  docs : Docs
  deriving DecidableEq, Repr

/-- The kinds of types. -/
inductive TypeKind where
  | classKind
  | interfaceKind
  | enumKind
  deriving DecidableEq, Repr

/-- The name of a kind. -/
def TypeKind.name : TypeKind → String
  | .classKind => "class"
  | .interfaceKind => "interface"
  | .enumKind => "enum"

/-- Every kind. -/
def TypeKind.all : List TypeKind :=
  [.classKind, .interfaceKind, .enumKind]

/-- The kind of a name. -/
def TypeKind.ofName? (name : String) : Option TypeKind :=
  TypeKind.all.find? fun kind => kind.name == name

/-- What classes and interfaces have in common. -/
structure Members where
  interfaces : List String
  methods : List Method
  properties : List Property

/-- What a type of each kind declares. -/
inductive TypeBody where
  | ofClass (base : Option String) (members : Members) (isAbstract : Bool)
      (initializer : Option Initializer)
  | ofInterface (members : Members)
  | ofEnum (members : List EnumMember)

/-- A declared type: its full name, the assembly that declares it, its own name with the namespace
it stands in, and its body. -/
structure TypeDef where
  fqn : String
  assembly : String
  name : String
  scope : Option String
  docs : Docs
  body : TypeBody

namespace TypeDef

/-- The kind of a type. -/
def kind (t : TypeDef) : TypeKind :=
  match t.body with
  | .ofClass .. => .classKind
  | .ofInterface _ => .interfaceKind
  | .ofEnum _ => .enumKind

/-- The type is a class. -/
def isClass (t : TypeDef) : Bool :=
  t.kind == .classKind

/-- The type is an enum. -/
def isEnum (t : TypeDef) : Bool :=
  t.kind == .enumKind

/-- The members of a class or an interface; an enum has none of these. -/
def members (t : TypeDef) : Members :=
  match t.body with
  | .ofClass _ members _ _ => members
  | .ofInterface members => members
  | .ofEnum _ => ⟨[], [], []⟩

/-- The declared base of a class. -/
def base (t : TypeDef) : Option String :=
  match t.body with
  | .ofClass base _ _ _ => base
  | _ => none

/-- The declared interfaces. -/
def interfaces (t : TypeDef) : List String :=
  t.members.interfaces

/-- The declared methods. -/
def methods (t : TypeDef) : List Method :=
  t.members.methods

/-- The declared properties. -/
def properties (t : TypeDef) : List Property :=
  t.members.properties

/-- The initializer of a class. -/
def initializer (t : TypeDef) : Option Initializer :=
  match t.body with
  | .ofClass _ _ _ initializer => initializer
  | _ => none

/-- The type is declared abstract. -/
def isAbstract (t : TypeDef) : Bool :=
  match t.body with
  | .ofClass _ _ isAbstract _ => isAbstract
  | _ => false

/-- The members of an enum. -/
def enumMembers (t : TypeDef) : List EnumMember :=
  match t.body with
  | .ofEnum members => members
  | _ => []

end TypeDef

/-- The manifest of one assembly. -/
structure Manifest where
  name : String
  version : String
  dependencies : List Dependency
  types : List TypeDef
  description : Option String
  homepage : Option String
  license : Option String
  schema : Option String

namespace Manifest

/-- The names of the declared dependencies. -/
def dependencyNames (m : Manifest) : List String :=
  m.dependencies.map Dependency.name

end Manifest
end TypeGraph
