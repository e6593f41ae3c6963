import TypeGraph.CommandLine.Request
import TypeGraph.Inheritance.Recall
import TypeGraph.Json.Writer
import TypeGraph.Member

/-!
# Listings

What a command shows of a loaded catalog, in lines for a reader or as one object for a program.  The
fields of an object are written in ascending order of their names.
-/

namespace TypeGraph
namespace CommandLine

/-- A listing in both forms. -/
structure Listing where
  lines : List String
  object : Json

namespace Listing

/-- An object on one line. -/
def objectLine (object : Json) : String :=
  object.sortNames.write ++ "\n"

/-- What is printed of a listing. -/
def output (listing : Listing) (asJson : Bool) : String :=
  if asJson then objectLine listing.object
  else String.join (listing.lines.map (· ++ "\n"))

/-- Texts as an array. -/
def texts (items : List String) : Json :=
  .array (items.map .string)

/-- A text that may be missing, as a value. -/
def optional : Option String → Json
  | some text => .string text
  | none => .null

/-- The row of an assembly; roots are marked with a star. -/
def assemblyLine (c : Catalog) (m : Manifest) : String :=
  (if c.isRoot m.name then "*" else " ") ++ s!" {m.name}@{m.version}"

/-- The object of an assembly. -/
def assemblyObject (c : Catalog) (m : Manifest) : Json :=
  .object
    [("name", .string m.name), ("version", .string m.version), ("root", .bool (c.isRoot m.name)),
     ("dependencies", texts m.dependencyNames)]

/-- All assemblies. -/
def assemblies (c : Catalog) : Listing :=
  { lines := c.assemblies.map (assemblyLine c)
    object := .object [("assemblies", .array (c.assemblies.map (assemblyObject c)))] }

/-- The row of a type; the names stand below each other. -/
def typeLine (t : TypeDef) : String :=
  t.kind.name ++ String.ofList (List.replicate (9 - t.kind.name.length) ' ') ++ " " ++ t.fqn

/-- The fields of a type. -/
def typeFields (t : TypeDef) : List (String × Json) :=
  [("fqn", .string t.fqn), ("kind", .string t.kind.name), ("assembly", .string t.assembly)]

/-- The types of all assemblies or of one, of all kinds or of one. -/
def types (c : Catalog) (kind : Option TypeKind) (assembly : Option String) :
    Except Failure Listing := do
  let declared ←
    match assembly with
    | some name => pure (← c.assemblyNamed name).types
    | none => pure c.types
  let shown := declared.filter fun t => kind.all fun wanted => t.kind == wanted
  return {
    lines := shown.map typeLine
    object := .object [("types", .array (shown.map fun t => .object (typeFields t)))] }

/-- What is asked of the registry to describe a type. -/
structure Description where
  type : TypeDef
  ancestors : List String
  isDataType : Bool
  interfaces : List String
  methods : List (TypeDef × Method)
  properties : List (TypeDef × Property)

/-- The description of a type, with or without what it inherits. -/
def describeType (t : TypeDef) (inherited : Bool) : Query Description := do
  let ancestors ← Query.ancestorsOf t
  let isDataType ← Query.isDataType t
  let interfaces ← Query.interfacesOf t inherited
  let methods ← Query.methodsOf t inherited
  let properties ← Query.propertiesOf t inherited
  return { type := t, ancestors, isDataType, interfaces, methods, properties }

/-- The row of a method with its owner. -/
def methodLine (owned : TypeDef × Method) : String :=
  let mark := if owned.2.isStatic then "static " else ""
  s!"  method {mark}{owned.2.signature}  [{owned.1.fqn}]"

/-- The row of a property with its owner. -/
def propertyLine (owned : TypeDef × Property) : String :=
  let mark := if owned.2.isImmutable then "readonly " else ""
  s!"  property {mark}{owned.2.name}: {owned.2.usage.text}  [{owned.1.fqn}]"

/-- A row for a text that is there and not empty. -/
def textLine (label : String) : Option String → List String
  | some text => if text.isEmpty then [] else [s!"  {label}: {text}"]
  | none => []

/-- The row that names the interfaces, if there are any. -/
def interfacesLine (interfaces : List String) : List String :=
  if interfaces.isEmpty then [] else ["  interfaces: " ++ ", ".intercalate interfaces]

/-- The rows of a description. -/
def descriptionLines (d : Description) : List String :=
  let t := d.type
  let base :=
    match t.base with
    | some fqn => " extends " ++ fqn
    | none => ""
  [s!"{t.kind.name} {t.fqn}{base}", s!"  assembly: {t.assembly}"] ++
    textLine "summary" t.docs.summary ++
    (if d.isDataType then ["  data type"] else []) ++
    interfacesLine d.interfaces ++
    d.methods.map methodLine ++
    d.properties.map propertyLine ++
    t.enumMembers.map fun member => "  member " ++ member.name

/-- The object of a method with its owner. -/
def methodObject (owned : TypeDef × Method) : Json :=
  .object
    [("name", .string owned.2.name), ("signature", .string owned.2.signature),
     ("declared_by", .string owned.1.fqn), ("static", .bool owned.2.isStatic)]

/-- The object of a property with its owner. -/
def propertyObject (owned : TypeDef × Property) : Json :=
  .object
    [("name", .string owned.2.name), ("type", .string owned.2.usage.text),
     ("declared_by", .string owned.1.fqn), ("immutable", .bool owned.2.isImmutable)]

/-- The fields that only classes have; the initializer is left out when there is none. -/
def classFields (d : Description) : List (String × Json) :=
  [("abstract", .bool d.type.isAbstract), ("base", optional d.type.base),
   ("ancestors", texts d.ancestors)] ++
    match d.type.initializer with
    | some i => [("initializer", texts (i.parameters.map Parameter.name))]
    | none => []

/-- The fields that classes and interfaces have. -/
def memberFields (d : Description) : List (String × Json) :=
  [("interfaces", texts d.interfaces), ("methods", .array (d.methods.map methodObject)),
   ("properties", .array (d.properties.map propertyObject))]

/-- The object of a description. -/
def descriptionObject (d : Description) : Json :=
  let t := d.type
  let shared := typeFields t ++ [("summary", optional t.docs.summary)]
  match t.kind with
  | .classKind => .object (shared ++ classFields d ++ memberFields d)
  | .interfaceKind =>
      .object (shared ++ [("data_type", .bool d.isDataType)] ++ memberFields d)
  | .enumKind => .object (shared ++ [("members", texts (t.enumMembers.map EnumMember.name))])

/-- The description of a type. -/
def describe (fqn : String) (inherited : Bool) : Query Listing := do
  let t ← Query.fromCatalog fun c => c.typeNamed fqn
  let d ← describeType t inherited
  return { lines := descriptionLines d, object := descriptionObject d }

/-- The implementations of an interface. -/
def implementations (fqn : String) : Query Listing := do
  let t ← Query.fromCatalog fun c => c.findKind .interfaceKind (.string fqn)
  let names ← Query.implementations t
  return {
    lines := names
    object := .object [("fqn", .string fqn), ("implementations", texts names)] }

/-- The listing of a command. -/
def ofCommand : Command → Query Listing
  | .assemblies => Query.fromCatalog fun c => .ok (assemblies c)
  | .types kind assembly => Query.fromCatalog fun c => types c kind assembly
  | .describe fqn inherited => describe fqn inherited
  | .implementations fqn => implementations fqn

end Listing
end CommandLine
end TypeGraph
