import TypeGraph.Manifest.Basic

/-!
# Switches and commands

A command line names one of four commands.  Switches stand before the command and after it, and each
command has switches of its own.
-/

namespace TypeGraph
namespace CommandLine

/-- The switches of the program and its commands. -/
inductive Switch where
  | help
  | verbose
  | root
  | sources
  | timeout
  | json
  | kind
  | assembly
  | fqn
  | inherited
  deriving DecidableEq, Repr

namespace Switch

/-- The ways to write a switch. -/
def spellings : Switch → List String
  | .help => ["-h", "--help"]
  | .verbose => ["-v", "--verbose"]
  | .root => ["--root"]
  | .sources => ["--sources"]
  | .timeout => ["--timeout"]
  | .json => ["--json"]
  | .kind => ["--kind"]
  | .assembly => ["--assembly"]
  | .fqn => ["--fqn"]
  | .inherited => ["--inherited"]

/-- A value belongs to the switch. -/
def takesValue : Switch → Bool
  | .root | .sources | .timeout | .kind | .assembly | .fqn => true
  | .help | .verbose | .json | .inherited => false

/-- The name of a switch in a message. -/
def label (s : Switch) : String :=
  "/".intercalate s.spellings

end Switch

/-- The commands. -/
inductive CommandName where
  | assemblies
  | types
  | describe
  | implementations
  deriving DecidableEq, Repr

namespace CommandName

/-- The commands in the order in which they are listed. -/
def all : List CommandName :=
  [.assemblies, .types, .describe, .implementations]

/-- The word for a command. -/
def text : CommandName → String
  | .assemblies => "assemblies"
  | .types => "types"
  | .describe => "describe"
  | .implementations => "implementations"

/-- The command of a word. -/
def ofText? (word : String) : Option CommandName :=
  all.find? fun name => name.text == word

/-- The switches of a command. -/
def switches (name : CommandName) : List Switch :=
  let shared : List Switch := [.help, .root, .sources, .timeout, .json]
  match name with
  | .assemblies => shared
  | .types => shared ++ [.kind, .assembly]
  | .describe => shared ++ [.fqn, .inherited]
  | .implementations => shared ++ [.fqn]

end CommandName

/-- The switches that may stand before the command. -/
def frontSwitches : List Switch :=
  [.help, .verbose]

/-- The kinds that may be asked for. -/
def kinds : List TypeKind :=
  [.classKind, .interfaceKind, .enumKind]

/-- The program as it names itself, with the command that is being read. -/
def programName : Option CommandName → String
  | none => "asmreflect"
  | some name => "asmreflect " ++ name.text

end CommandLine
end TypeGraph
