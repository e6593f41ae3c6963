import TypeGraph.Manifest.Entry
import TypeGraph.Text.Utf8

/-!
# Manifest documents

A manifest comes as a value, as the text of one, or as the bytes of such a text.  Dependencies are
an object from names to versions or a list of names; types are an object from full names to entries
or a list of entries that hold their full names.

**Results.**
* `Manifest.decode_bytes_eq`, `Manifest.decode_text_eq`: a document in bytes or text decodes as the
  value that its text spells.
-/

namespace TypeGraph

/-- A manifest as it was found. -/
inductive Source where
  | value (value : Json)
  | text (text : String)
  | bytes (bytes : List UInt8)

/-- Attribute a defect to no assembly. -/
def unattributed {α : Type} (result : Except Defect α) : Except Malformed α :=
  result.mapError fun defect => ⟨none, none, defect⟩

/-- Attribute a defect to an assembly. -/
def inAssembly {α : Type} (assembly : String) (result : Except Defect α) : Except Malformed α :=
  result.mapError fun defect => ⟨some assembly, none, defect⟩

/-- Attribute a defect to a type of an assembly. -/
def inType {α : Type} (assembly fqn : String) (result : Except Defect α) : Except Malformed α :=
  result.mapError fun defect => ⟨some assembly, some fqn, defect⟩

namespace Dependency

/-- The version of a dependency: absent, a text, or an object that may hold one. -/
def decodeVersion (name : String) (given : Json) : Except Defect (Option String) :=
  let version :=
    match given with
    | .object fields => Json.Fields.get fields "version"
    | other => other
  match version with
  | .null => .ok none
  | .string s => .ok (some s)
  | _ => .error (.dependencyVersion name)

/-- A dependency of an object from names to versions. -/
def decodeField (name : String) (given : Json) : Except Defect Dependency :=
  if name.isEmpty then .error .dependencyName
  else return ⟨name, ← decodeVersion name given⟩

/-- The dependencies of a manifest. -/
def decodeList : Json → Except Defect (List Dependency)
  | .null => .ok []
  | .object fields => fields.mapM fun (name, given) => decodeField name given
  | .array items =>
      match items.mapM Json.name? with
      | none => .error .dependencyItem
      | some names =>
          if (firstRepeat? names).isSome then .error .dependencyRepeats
          else .ok (names.map fun name => ⟨name, none⟩)
  | _ => .error .dependenciesShape

end Dependency

namespace Manifest

/-- The entry of an object of types: the key is its full name, which the entry may repeat. -/
def keyedEntry (assembly key : String) (entry : Json) : Except Malformed (String × Json) :=
  let given :=
    match entry with
    | .object fields => Json.Fields.get fields "fqn"
    | _ => .null
  let same :=
    match given with
    | .null => true
    | .string s => s == key
    | _ => false
  if same then .ok (key, entry) else inType assembly key (.error (.keyMismatch key given))

/-- The entry of a list of types, with the full name it holds. -/
def listedEntry (assembly : String) (entry : Json) : Except Malformed (String × Json) :=
  match entry.fields?.bind fun fields => (Json.Fields.get fields "fqn").name? with
  | some fqn => .ok (fqn, entry)
  | none => inAssembly assembly (.error .noFqn)

/-- The type entries of a manifest with their full names. -/
def entries (assembly : String) : Json → Except Malformed (List (String × Json))
  | .null => .ok []
  | .object fields => fields.mapM fun (key, entry) => keyedEntry assembly key entry
  | .array items => items.mapM (listedEntry assembly)
  | _ => inAssembly assembly (.error .typesShape)

/-- The manifest of an object. -/
def ofFields (fields : Json.Fields) : Except Malformed Manifest := do
  let some name := (Json.Fields.get fields "name").name? | unattributed (throw .noName)
  let some version := (Json.Fields.get fields "version").name?
    | inAssembly name (throw .noVersion)
  let dependencies ← inAssembly name (Dependency.decodeList (Json.Fields.get fields "dependencies"))
  let found ← entries name (Json.Fields.get fields "types")
  let types ← found.mapM fun (fqn, entry) => inType name fqn (TypeDef.decode name fqn entry)
  let description ← inAssembly name (Json.Fields.optionalString fields "description")
  let homepage ← inAssembly name (Json.Fields.optionalString fields "homepage")
  let license ← inAssembly name (Json.Fields.optionalString fields "license")
  let schema ← inAssembly name (Json.Fields.optionalString fields "schema")
  return { name, version, dependencies, types, description, homepage, license, schema }

/-- The manifest of a value that is not the text of one. -/
def ofJson : Json → Except Malformed Manifest
  | .object fields => ofFields fields
  | _ => unattributed (.error .notObject)

/-- The manifest of a text. -/
def ofText (text : String) : Except Malformed Manifest :=
  match Json.read text with
  | .error fault => unattributed (.error (.notJson fault))
  | .ok value => ofJson value

/-- The manifest of a source; a value that is a text is read as one. -/
def decode : Source → Except Malformed Manifest
  | .value (.string text) => ofText text
  | .value value => ofJson value
  | .text text => ofText text
  | .bytes bytes =>
      match Text.ofUtf8 bytes with
      | .error _ => unattributed (.error .notUtf8)
      | .ok text => ofText text

/-- Bytes decode as the text that they spell. -/
theorem decode_bytes_eq
    {bytes : List UInt8}
    {text : String}
    (h : Text.ofUtf8 bytes = .ok text) :
    decode (.bytes bytes) = decode (.text text) := by
  simp [decode, h]

/-- A text decodes as the object that it spells. -/
theorem decode_text_eq
    {text : String}
    {fields : Json.Fields}
    (h : Json.read text = .ok (.object fields)) :
    decode (.text text) = decode (.value (.object fields)) := by
  simp [decode, ofText, ofJson, h]

end Manifest
end TypeGraph
