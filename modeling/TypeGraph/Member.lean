import TypeGraph.Registry.Catalog

/-!
# Member views

What a member shows of its types: the text of a reference with its mark of optionality, the signature
of a method, and the parts of a reference with the type that a name leads to.
-/

namespace TypeGraph

/-- A type reference as a member uses it; nothing is no reference at all. -/
structure Usage where
  ref : Option TypeRef
  isOptional : Bool

namespace Usage

/-- The reference of a required value. -/
def ofRef (ref : TypeRef) : Usage :=
  ⟨some ref, false⟩

/-- The text of a usage. -/
def text (u : Usage) : String :=
  match u.ref with
  | none => "void"
  | some ref => if u.isOptional then ref.text ++ "?" else ref.text

/-- Nothing is returned. -/
def isVoid (u : Usage) : Bool :=
  u.ref.isNone

/-- The primitive of a reference to one. -/
def primitive? (u : Usage) : Option Primitive :=
  match u.ref with
  | some (.primitive p) => some p
  | _ => none

/-- The full name of a reference to a named type. -/
def fqn? (u : Usage) : Option String :=
  match u.ref with
  | some (.named fqn) => some fqn
  | _ => none

/-- The type that a reference to a named type leads to. -/
def target (u : Usage) (c : Catalog) : Except Failure (Option TypeDef) :=
  match u.fqn? with
  | some fqn => return some (← c.typeNamed fqn)
  | none => return none

/-- The element of an array. -/
def arrayOf? (u : Usage) : Option Usage :=
  match u.ref with
  | some (.array element) => some (.ofRef element)
  | _ => none

/-- The element of a map. -/
def mapOf? (u : Usage) : Option Usage :=
  match u.ref with
  | some (.map element) => some (.ofRef element)
  | _ => none

/-- The members of a union. -/
def unionOf? (u : Usage) : Option (List Usage) :=
  match u.ref with
  | some (.union members) => some (members.map ofRef)
  | _ => none

end Usage

/-- The type of a parameter. -/
def Parameter.usage (p : Parameter) : Usage :=
  ⟨some p.type, p.isOptional⟩

/-- What a method returns. -/
def Method.usage (m : Method) : Usage :=
  ⟨m.returns, m.returnsOptional⟩

/-- The type of a property. -/
def Property.usage (p : Property) : Usage :=
  ⟨some p.type, p.isOptional⟩

/-- A parameter in a signature; the mark of optionality follows its name. -/
def Parameter.text (p : Parameter) : String :=
  (if p.isVariadic then "..." else "") ++ p.name ++ (if p.isOptional then "?" else "") ++ ": " ++
    p.type.text

/-- The signature of a method. -/
def Method.signature (m : Method) : String :=
  m.name ++ "(" ++ ", ".intercalate (m.parameters.map Parameter.text) ++ "): " ++ m.usage.text

/-- An assembly in a listing. -/
def Manifest.label (m : Manifest) : String :=
  s!"<Assembly {m.name}@{m.version}>"

/-- A type in a listing. -/
def TypeDef.label (t : TypeDef) : String :=
  let node :=
    match t.kind with
    | .classKind => "ClassType"
    | .interfaceKind => "InterfaceType"
    | .enumKind => "EnumType"
  s!"<{node} {t.fqn}>"

/-- A catalog in a listing. -/
def Catalog.label (c : Catalog) : String :=
  s!"<TypeSystem assemblies={c.assemblies.length} types={c.types.length}>"

end TypeGraph
