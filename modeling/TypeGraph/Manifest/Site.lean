import TypeGraph.Manifest.Basic

/-!
# Reference sites

A site is one mention of a type in the declaration of another, at any depth of a type reference,
with the place of the declaration it occurs in.
-/

namespace TypeGraph

/-- The places of a declaration where types are mentioned. -/
inductive SitePlace where
  | base
  | interfaces
  | initializerParameter (parameter : String)
  | methodParameter (method parameter : String)
  | methodReturns (method : String)
  | property (name : String)
  deriving DecidableEq, Repr

/-- The wording of a place. -/
def SitePlace.label : SitePlace → String
  | .base => "base"
  | .interfaces => "interfaces"
  | .initializerParameter parameter => s!"initializer parameter {parameter}"
  | .methodParameter method parameter => s!"method {method} parameter {parameter}"
  | .methodReturns method => s!"method {method} returns"
  | .property name => s!"property {name}"

/-- One mention of a type. -/
structure Site where
  target : String
  place : SitePlace
  deriving DecidableEq, Repr

/-- The mentions in a type reference that stands at a place. -/
def TypeRef.sites (ref : TypeRef) (place : SitePlace) : List Site :=
  ref.mentioned.map fun fqn => ⟨fqn, place⟩

/-- The mentions in a method: its parameters, then what it returns. -/
def Method.sites (m : Method) : List Site :=
  m.parameters.flatMap (fun p => p.type.sites (.methodParameter m.name p.name)) ++
    (match m.returns with
      | some ref => ref.sites (.methodReturns m.name)
      | none => [])

/-- The mentions in a property. -/
def Property.sites (p : Property) : List Site :=
  p.type.sites (.property p.name)

/-- The mentions in an initializer. -/
def Initializer.sites (i : Initializer) : List Site :=
  i.parameters.flatMap fun p => p.type.sites (.initializerParameter p.name)

/-- The mentions in the members of a class or an interface. -/
def Members.sites (m : Members) : List Site :=
  m.interfaces.map (fun fqn => ⟨fqn, .interfaces⟩) ++
    m.methods.flatMap Method.sites ++ m.properties.flatMap Property.sites

/-- Every mention of a type in the declaration of another, in declaration order. -/
def TypeDef.sites (t : TypeDef) : List Site :=
  match t.body with
  | .ofClass base members _ initializer =>
      base.toList.map (fun fqn => ⟨fqn, .base⟩) ++
        initializer.toList.flatMap Initializer.sites ++ members.sites
  | .ofInterface members => members.sites
  | .ofEnum _ => []

end TypeGraph
