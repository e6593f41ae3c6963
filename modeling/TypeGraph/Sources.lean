import TypeGraph.Disk.Basic
import TypeGraph.Json.Reader
import TypeGraph.Text.Utf8

/-!
# Sources files

A sources file lists the directories where manifests are looked for, with the name of a manifest
file in a directory and the time allowed for each manifest.  Relative directories are seen from the
directory of the sources file.
-/

namespace TypeGraph

/-- Where manifests are looked for, and for how long. -/
structure LoadOptions where
  searchRoots : List Path
  manifestFile : String
  limit : Option Number
  deriving DecidableEq, Repr

namespace LoadOptions

/-- The name of a manifest file in a directory unless another one is given. -/
def defaultManifestFile : String := "assembly.json"

/-- No directories, the usual name, and no limit. -/
def default : LoadOptions :=
  ⟨[], defaultManifestFile, none⟩

/-- The options with further directories in front; each directory is kept where it comes first. -/
def withRoots (options : LoadOptions) (roots : List Path) : LoadOptions :=
  { options with searchRoots := (roots ++ options.searchRoots).eraseDups }

end LoadOptions

/-- Why a sources file is refused. -/
inductive SourcesFault where
  | disk (error : DiskError)
  | notUtf8 (fault : Text.Utf8Fault)
  | notJson (path : Path) (kind : Json.FaultKind)
  | tooManyDigits (fault : Json.DigitFault)
  | notObject
  | unsupported
  | unknownFields (names : List String)
  | rootsShape
  | manifestFileShape
  | limitShape
  | limitTooLarge

/-- The wording of a fault. -/
def SourcesFault.message : SourcesFault → String
  | .disk error => error.message
  | .notUtf8 fault => fault.message
  | .notJson path kind => s!"sources file '{path.text}' is not valid JSON: {kind.message}"
  | .tooManyDigits fault => fault.message
  | .notObject => "sources file must be a JSON object"
  | .unsupported => "unsupported sources file format/version"
  | .unknownFields names => "sources file has unknown fields: " ++ ", ".intercalate names
  | .rootsShape => "sources file 'roots' must be a list of non-empty strings"
  | .manifestFileShape => "sources file 'manifest_file' must be a non-empty string"
  | .limitShape => "sources file 'resolve_timeout' must be a positive number"
  | .limitTooLarge => "int too large to convert to float"

/-- The fault of a sources file whose text is not read; an integer with too many digits is told without
the path. -/
def SourcesFault.ofRead (path : Path) : Json.FaultKind → SourcesFault
  | .tooManyDigits digits => .tooManyDigits (.read digits)
  | kind => .notJson path kind

namespace Sources

/-- The sources file that is read when none is given. -/
def defaultPath : Path :=
  .ofText "asmreflect-sources.json"

/-- The fields of a sources file. -/
def knownFields : List String :=
  ["format", "version", "roots", "manifest_file", "resolve_timeout"]

/-- The format is the one known here. -/
def isFormat : Json → Bool
  | .string s => s == "asmreflect-sources"
  | _ => false

/-- The version is zero, which false counts as too. -/
def isVersion : Json → Bool
  | .bool b => !b
  | .number n => n.isZero
  | _ => false

/-- The fields of a file of the right format without unknown fields. -/
def checkFields : Json → Except SourcesFault Json.Fields
  | .object fields =>
      if !isFormat (Json.Fields.get fields "format") ||
          !isVersion (Json.Fields.get fields "version") then
        .error .unsupported
      else
        let unknown := (fields.map Prod.fst).filter fun name => !knownFields.contains name
        if unknown.isEmpty then .ok fields
        else .error (.unknownFields (unknown.mergeSort fun a b => decide (a ≤ b)))
  | _ => .error .notObject

/-- The directories of a file that lies in `base`. -/
def roots (base : Path) (fields : Json.Fields) : Except SourcesFault (List Path) :=
  match fields.lookup "roots" with
  | none => .ok []
  | some (.array items) =>
      match items.mapM Json.name? with
      | none => .error .rootsShape
      | some names => .ok (names.map base.child)
  | some _ => .error .rootsShape

/-- The name of a manifest file. -/
def manifestFile (fields : Json.Fields) : Except SourcesFault String :=
  match fields.lookup "manifest_file" with
  | none => .ok LoadOptions.defaultManifestFile
  | some given =>
      match given.name? with
      | some name => .ok name
      | none => .error .manifestFileShape

/-- The limit in seconds, as a real. -/
def limit (fields : Json.Fields) : Except SourcesFault (Option Number) :=
  match Json.Fields.get fields "resolve_timeout" with
  | .null => .ok none
  | .number n =>
      if n.isNonpositive then .error .limitShape
      else
        match n with
        | .real x => .ok (some (.real x))
        | .int n =>
            match Binary64.ofInt? n with
            | some x => .ok (some (.real x))
            | none => .error .limitTooLarge
  | _ => .error .limitShape

/-- The options of a document that lies in `base`. -/
def ofJson (base : Path) (value : Json) : Except SourcesFault LoadOptions := do
  let fields ← checkFields value
  let searchRoots ← roots base fields
  let manifestFile ← manifestFile fields
  let limit ← limit fields
  return { searchRoots, manifestFile, limit }

/-- Read the options of the sources file at a path. -/
def load (disk : Disk) (path : Path) : Except SourcesFault LoadOptions := do
  let bytes ← (disk.read path).mapError .disk
  let text ← (Text.ofUtf8 bytes).mapError .notUtf8
  let value ← (Json.read text).mapError fun fault => .ofRead path fault.kind
  ofJson path.parent value

end Sources
end TypeGraph
