import TypeGraph.Json.Reader
import TypeGraph.TypeRef.Fault

/-!
# Defects of a manifest

A manifest is refused for one of the reasons below.  A defect inside a type entry is attributed to
the assembly and to the entry's full name, and one found later than the name of the assembly to the
assembly alone.
-/

namespace TypeGraph

/-- The owner of a list of parameters. -/
inductive ParameterOwner where
  | method (name : String)
  | initializer
  deriving DecidableEq, Repr

/-- The wording of an owner. -/
def ParameterOwner.label : ParameterOwner → String
  | .method name => s!"method '{name}'"
  | .initializer => "initializer"

/-- The places of a type entry that hold a type reference. -/
inductive RefPlace where
  | parameter (owner : ParameterOwner) (name : String)
  | returns (method : String)
  | property (name : String)
  deriving DecidableEq, Repr

/-- The wording of a place. -/
def RefPlace.label : RefPlace → String
  | .parameter owner name => s!"{owner.label} parameter '{name}'"
  | .returns method => s!"method '{method}' returns"
  | .property name => s!"property '{name}'"

/-- The members of a type whose names must differ. -/
inductive MemberKind where
  | enumMember
  | method
  | property
  deriving DecidableEq, Repr

/-- The wording of a kind of members. -/
def MemberKind.label : MemberKind → String
  | .enumMember => "enum member"
  | .method => "method"
  | .property => "property"

/-- Why a manifest is refused. -/
inductive Defect where
  | notUtf8
  | notJson (fault : Json.ReadFault)
  | notObject
  | noName
  | noVersion
  | notString (field : String)
  | notBoolean (field : String)
  | notList (field : String)
  | docsShape
  | parametersShape (owner : ParameterOwner)
  | parameterShape (owner : ParameterOwner)
  | parameterName (owner : ParameterOwner)
  | parameterType (owner : ParameterOwner) (name : String)
  | parameterRepeats (owner : ParameterOwner)
  | variadicNotLast (owner : ParameterOwner) (name : String)
  | requiredAfterOptional (owner : ParameterOwner) (name : String)
  | reference (place : RefPlace) (fault : RefFault)
  | methodShape
  | methodName
  | propertyShape
  | propertyName
  | propertyType (name : String)
  | entryShape (field : String)
  | entryRepeats (field item : String)
  | memberRepeats (kind : MemberKind) (name : String)
  | outsideAssembly (assembly : String)
  | emptyTypeName
  | typeShape
  | unknownKind (given : Json)
  | enumMemberShape
  | baseShape
  | initializerShape
  | dependencyName
  | dependencyVersion (name : String)
  | dependencyItem
  | dependencyRepeats
  | dependenciesShape
  | keyMismatch (key : String) (given : Json)
  | noFqn
  | typesShape

/-- The wording of a defect. -/
def Defect.message : Defect → String
  | .notUtf8 => "manifest is not valid UTF-8"
  | .notJson fault => s!"manifest is not valid JSON: {fault.kind.message} (line {fault.line})"
  | .notObject => "manifest must be a JSON object"
  | .noName => "manifest missing assembly name"
  | .noVersion => "manifest missing assembly version"
  | .notString field => s!"'{field}' must be a string"
  | .notBoolean field => s!"'{field}' must be a boolean"
  | .notList field => s!"'{field}' must be a list"
  | .docsShape => "'docs' must be an object"
  | .parametersShape owner => s!"{owner.label}: 'parameters' must be a list"
  | .parameterShape owner => s!"{owner.label}: parameter entry must be an object"
  | .parameterName owner => s!"{owner.label}: parameter missing name"
  | .parameterType owner name => s!"{owner.label}: parameter '{name}' missing type"
  | .parameterRepeats owner => s!"{owner.label}: duplicate parameter names"
  | .variadicNotLast owner name => s!"{owner.label}: variadic parameter '{name}' must be last"
  | .requiredAfterOptional owner name =>
      s!"{owner.label}: required parameter '{name}' follows an optional one"
  | .reference place fault => s!"{place.label}: {fault.message}"
  | .methodShape => "method entry must be an object"
  | .methodName => "method missing name"
  | .propertyShape => "property entry must be an object"
  | .propertyName => "property missing name"
  | .propertyType name => s!"property '{name}' missing type"
  | .entryShape field => s!"'{field}' entries must be type FQNs"
  | .entryRepeats field item => s!"'{field}' lists '{item}' more than once"
  | .memberRepeats kind name => s!"duplicate {kind.label} '{name}'"
  | .outsideAssembly assembly => s!"type fqn must start with '{assembly}.'"
  | .emptyTypeName => "'name' must be a non-empty string"
  | .typeShape => "type entry must be an object"
  | .unknownKind given => s!"unknown type kind '{given.display}'"
  | .enumMemberShape => "enum member must be a name or an object with a name"
  | .baseShape => "'base' must be a type FQN"
  | .initializerShape => "'initializer' must be an object"
  | .dependencyName => "dependency names must be non-empty strings"
  | .dependencyVersion name => s!"dependency '{name}' version must be a string"
  | .dependencyItem => "dependency list must contain non-empty strings"
  | .dependencyRepeats => "dependency list contains duplicates"
  | .dependenciesShape => "'dependencies' must be an object or a list"
  | .keyMismatch key given => s!"type key '{key}' does not match its fqn '{given.display}'"
  | .noFqn => "type entry missing fqn"
  | .typesShape => "'types' must be an object or a list"

/-- The value that the wording of a defect shows. -/
def Defect.shown? : Defect → Option Json
  | .unknownKind given | .keyMismatch _ given => some given
  | .reference _ fault => fault.shown?
  | _ => none

/-- A defect that is not told, because of an integer with too many digits in the document, or in the
value that its wording shows. -/
def Defect.digitFault? : Defect → Option Json.DigitFault
  | .notJson ⟨.tooManyDigits digits, _⟩ => some (.read digits)
  | defect => if defect.shown?.any Json.holdsLong then some .shown else none

/-- A refused manifest: the defect, and the assembly and the type it was found in as far as they
were known. -/
structure Malformed where
  assembly : Option String
  fqn : Option String
  defect : Defect

end TypeGraph
