import TypeGraph.CommandLine.Switch
import TypeGraph.Text.Quoted

/-!
# Faults of usage

Why a command line is refused.  The message of a fault stands after the name of the program, or of
the program and its command when the fault lies in what follows the command.
-/

namespace TypeGraph
namespace CommandLine

/-- Why a command line is refused. -/
inductive UsageFault where
  | ambiguous (word : String) (spellings : List String)
  | missingValue (s : Switch)
  | unusedValue (s : Switch) (value : String)
  | notReal (s : Switch) (value : String)
  | notChoice (label value : String) (choices : List String)
  | missing (labels : List String)
  | unrecognised (words : List String)
  | refused (reason : String)
  deriving DecidableEq, Repr

namespace UsageFault

/-- The wording of a fault. -/
def message : UsageFault → String
  | .ambiguous word spellings =>
      s!"ambiguous option: {word} could match " ++ ", ".intercalate spellings
  | .missingValue s => s!"argument {s.label}: expected one argument"
  | .unusedValue s value => s!"argument {s.label}: ignored explicit argument {Text.quoted value}"
  | .notReal s value => s!"argument {s.label}: invalid float value: {Text.quoted value}"
  | .notChoice label value choices =>
      let shown := ", ".intercalate (choices.map Text.quoted)
      s!"argument {label}: invalid choice: {Text.quoted value} (choose from {shown})"
  | .missing labels => "the following arguments are required: " ++ ", ".intercalate labels
  | .unrecognised words => "unrecognized arguments: " ++ " ".intercalate words
  | .refused reason => reason

/-- The line that reports a fault. -/
def line (f : UsageFault) (command : Option CommandName) : String :=
  programName command ++ ": error: " ++ f.message

end UsageFault
end CommandLine
end TypeGraph
