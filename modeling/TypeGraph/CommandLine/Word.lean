import TypeGraph.CommandLine.Fault
import TypeGraph.Text.Digit

/-!
# Words of a command line

Each word of a command line is an operand, a switch, the separator after which every word is an
operand, or something that looks like a switch and is none.  A long switch may be shortened as long
as only one is meant, and its value may follow an equals sign.  A negative number is an operand.

**Results.**
* `words_separator`: after the separator every word is an operand.
-/

namespace TypeGraph
namespace CommandLine

/-- The text attached to a switch in the same word. -/
structure Attached where
  afterSign : Bool
  text : String
  deriving DecidableEq, Repr

/-- What a word is. -/
inductive Form where
  | operand
  | separator
  | switch (s : Switch) (spelling : String) (attached : Option Attached)
  | unknown
  deriving DecidableEq, Repr

/-- A word with what it is. -/
structure Word where
  text : String
  form : Form
  deriving DecidableEq, Repr

namespace Word

/-- The word is an operand. -/
def isOperand (w : Word) : Bool :=
  w.form == .operand

/-- The word can stand in a run of operands. -/
def inRun (w : Word) : Bool :=
  w.form == .operand || w.form == .separator

end Word

/-- The spellings of some switches, each with its switch. -/
def spelled (known : List Switch) : List (String × Switch) :=
  known.flatMap fun s => s.spellings.map fun spelling => (spelling, s)

/-- The name before an equals sign and the text after it. -/
def splitSign (text : List Char) : String × Option Attached :=
  let name := String.ofList (text.takeWhile (· != '='))
  match text.dropWhile (· != '=') with
  | _ :: value => (name, some ⟨true, String.ofList value⟩)
  | [] => (name, none)

/-- A digit of any script. -/
def isAnyDigit (c : Char) : Bool :=
  (Text.digitValue? c).isSome

/-- The text is a minus with digits, or with digits, a point and further digits; a line feed may
follow. -/
def isNegativeNumber (text : List Char) : Bool :=
  match text with
  | '-' :: body =>
      let body := if body.getLast? = some '\n' then body.dropLast else body
      match body.dropWhile isAnyDigit with
      | [] => !body.isEmpty
      | '.' :: fraction => !fraction.isEmpty && fraction.all isAnyDigit
      | _ => false
  | _ => false

/-- The switches that a word which is no spelling of any may stand for. -/
def readings (known : List Switch) (text : List Char) : List Form :=
  match text with
  | '-' :: '-' :: _ =>
      let (name, attached) := splitSign text
      ((spelled known).filter fun entry => name.toList.isPrefixOf entry.1.toList).map fun entry =>
        .switch entry.2 entry.1 attached
  | '-' :: c :: rest =>
      ((spelled known).filter fun entry => entry.1 == String.ofList ['-', c]).map fun entry =>
        .switch entry.2 entry.1 (some ⟨false, String.ofList rest⟩)
  | _ => []

/-- The spellings of some readings. -/
def readingSpellings (forms : List Form) : List String :=
  forms.filterMap fun form =>
    match form with
    | .switch _ spelling _ => some spelling
    | _ => none

/-- What a word with a minus at its front is that is no spelling of a switch. -/
def formOfOther (known : List Switch) (word : String) : Except UsageFault Form :=
  match readings known word.toList with
  | [form] => .ok form
  | first :: second :: rest =>
      .error (.ambiguous word (readingSpellings (first :: second :: rest)))
  | [] =>
      if isNegativeNumber word.toList || word.toList.contains ' ' then .ok .operand
      else .ok .unknown

/-- What a word before the separator is. -/
def formOf (known : List Switch) (word : String) : Except UsageFault Form :=
  match word.toList with
  | '-' :: c :: rest =>
      match (spelled known).lookup word with
      | some s => .ok (.switch s word none)
      | none =>
          let (name, attached) := splitSign ('-' :: c :: rest)
          match attached, (spelled known).lookup name with
          | some value, some s => .ok (.switch s name (some value))
          | _, _ => formOfOther known word
  | _ => .ok .operand

/-- The words of a command line. -/
def words (known : List Switch) : List String → Except UsageFault (List Word)
  | [] => .ok []
  | word :: rest =>
      if word = "--" then .ok (⟨word, .separator⟩ :: rest.map fun text => ⟨text, .operand⟩)
      else
        match formOf known word with
        | .error fault => .error fault
        | .ok form => (words known rest).map (⟨word, form⟩ :: ·)

/-- After the separator every word is an operand. -/
theorem words_separator
    (known : List Switch)
    (rest : List String) :
    words known ("--" :: rest) =
      .ok (⟨"--", .separator⟩ :: rest.map fun text => ⟨text, .operand⟩) := by
  simp [words]

end CommandLine
end TypeGraph
