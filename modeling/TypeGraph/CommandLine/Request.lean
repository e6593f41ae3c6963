import TypeGraph.CommandLine.Item
import TypeGraph.Disk.Path
import TypeGraph.Number.Reading

/-!
# Requests

What a command line asks for: the modules to load, where to look for them and for how long, and what
to show of them.

**Results.**
* `Draft.finish_eq_ok`: a finished request has modules, and a type name where one is required.
-/

namespace TypeGraph
namespace CommandLine

/-- What to show. -/
inductive Command where
  | assemblies
  | types (kind : Option TypeKind) (assembly : Option String)
  | describe (fqn : String) (inherited : Bool)
  | implementations (fqn : String)
  deriving DecidableEq, Repr

/-- What a command line asks for. -/
structure Request where
  isVerbose : Bool
  modules : List String
  roots : List Path
  sources : Option Path
  limit : Option Binary64
  asJson : Bool
  command : Command
  deriving DecidableEq, Repr

/-- Why there is no request: help is asked for, or the command line is at fault. -/
inductive Refusal where
  | help (command : Option CommandName)
  | usage (command : Option CommandName) (fault : UsageFault)
  deriving DecidableEq, Repr

/-- What has been read of a command line so far. -/
structure Draft where
  operands : Option (List String)
  roots : List Path
  sources : Option Path
  limit : Option Binary64
  kind : Option TypeKind
  assembly : Option String
  fqn : Option String
  isVerbose : Bool
  asJson : Bool
  inherited : Bool
  strays : List String

namespace Draft

/-- Nothing has been read. -/
def empty : Draft :=
  ⟨none, [], none, none, none, none, none, false, false, false, []⟩

/-- The kind of a word. -/
def kindOf (word : String) : Except UsageFault TypeKind :=
  match kinds.find? fun kind => kind.name == word with
  | some kind => .ok kind
  | none => .error (.notChoice Switch.kind.label word (kinds.map TypeKind.name))

/-- Add a switch with its value. -/
def addSwitch (d : Draft) (command : Option CommandName) (s : Switch) (value : String) :
    Except Refusal Draft :=
  match s with
  | .help => .error (.help command)
  | .verbose => .ok { d with isVerbose := true }
  | .root => .ok { d with roots := d.roots ++ [.ofText value] }
  | .sources => .ok { d with sources := some (.ofText value) }
  | .timeout =>
      match Binary64.ofText? value with
      | some limit => .ok { d with limit := some limit }
      | none => .error (.usage command (.notReal s value))
  | .json => .ok { d with asJson := true }
  | .kind =>
      match kindOf value with
      | .ok kind => .ok { d with kind := some kind }
      | .error fault => .error (.usage command fault)
  | .assembly => .ok { d with assembly := some value }
  | .fqn => .ok { d with fqn := some value }
  | .inherited => .ok { d with inherited := true }

/-- Add an item. -/
def add (command : Option CommandName) (d : Draft) : Item → Except Refusal Draft
  | .switch s value => d.addSwitch command s (value.getD "")
  | .operands texts => .ok { d with operands := some texts }
  | .stray words => .ok { d with strays := d.strays ++ words }
  | .broken fault => .error (.usage command fault)

/-- Read the words before a command or after it. -/
def read (d : Draft) (command : Option CommandName) (known : List Switch)
    (items : List Switch → List Word → List Item) (arguments : List String) :
    Except Refusal Draft :=
  match words known arguments with
  | .error fault => .error (.usage command fault)
  | .ok ws => (items known ws).foldlM (add command) d

/-- What a command shows, if all that it requires is there. -/
def command? (d : Draft) : CommandName → Option Command
  | .assemblies => some .assemblies
  | .types => some (.types d.kind d.assembly)
  | .describe => d.fqn.map fun fqn => .describe fqn d.inherited
  | .implementations => d.fqn.map .implementations

/-- The labels of what is missing. -/
def missing (d : Draft) (name : CommandName) : List String :=
  (if d.operands.isNone then ["modules"] else []) ++
    (if (d.command? name).isNone then [Switch.fqn.label] else [])

/-- The request of a command of which everything has been read. -/
def finish (d : Draft) (name : CommandName) : Except Refusal Request :=
  match d.operands, d.command? name with
  | some modules, some command =>
      if d.strays.isEmpty then
        .ok
          { isVerbose := d.isVerbose
            modules := modules
            roots := d.roots
            sources := d.sources
            limit := d.limit
            asJson := d.asJson
            command := command }
      else .error (.usage none (.unrecognised d.strays))
  | _, _ => .error (.usage (some name) (.missing (d.missing name)))

/-- A finished request has modules, and a type name where one is required. -/
theorem finish_eq_ok
    {d : Draft}
    {name : CommandName}
    {request : Request}
    (h : d.finish name = .ok request) :
    d.operands = some request.modules ∧ d.command? name = some request.command := by
  unfold finish at h
  split at h
  · rename_i modules command hm hc
    split at h
    · cases h
      exact ⟨hm, hc⟩
    · cases h
  · cases h

end Draft

namespace Request

/-- The request of a command line. -/
def ofArguments (arguments : List String) : Except Refusal Request := do
  let front ← Draft.empty.read none frontSwitches frontItems arguments
  match front.operands with
  | some (word :: rest) =>
      match CommandName.ofText? word with
      | none => throw (.usage none (.notChoice "cmd" word (CommandName.all.map CommandName.text)))
      | some name =>
          let draft ←
            Draft.read { front with operands := none } (some name) name.switches commandItems rest
          draft.finish name
  | _ => throw (.usage none (.missing ["cmd"]))

end Request
end CommandLine
end TypeGraph
