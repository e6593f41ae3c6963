import TypeGraph.CommandLine.Word

/-!
# Items of a command line

The words of a command line are read from left to right as items: switches with their values, the
operands, words that belong to nothing, and the fault at which reading ends.  Operands are taken from
the first run of words that holds one; the operands of later runs belong to nothing.  A short switch
without a value may be followed by further short switches in the same word.

**Results.**
* `split_append`: the runs and the switches make up all words.
-/

namespace TypeGraph
namespace CommandLine

/-- A part of a command line. -/
inductive Item where
  | switch (s : Switch) (value : Option String)
  | operands (texts : List String)
  | stray (words : List String)
  | broken (fault : UsageFault)
  deriving DecidableEq, Repr

/-- The items read from a word, and the words left of the run after it. -/
abbrev Reading := Except UsageFault (List Item × List Word)

/-- A switch with nothing attached: its value is the operand next to it. -/
def readPlain (run : List Word) (s : Switch) : Reading :=
  if s.takesValue then
    match run with
    | w :: rest =>
        if w.isOperand then .ok ([.switch s (some w.text)], rest) else .error (.missingValue s)
    | [] => .error (.missingValue s)
  else .ok ([.switch s none], run)

/-- A short switch without a value, with further characters attached to it. -/
def readBundle (known : List Switch) (run : List Word) (s : Switch) : List Char → Reading
  | [] => readPlain run s
  | c :: rest =>
      if c = '-' then .error (.unusedValue s (String.ofList (c :: rest)))
      else
        match (spelled known).lookup (String.ofList ['-', c]) with
        | none => .ok ([.switch s none, .stray [String.ofList ('-' :: c :: rest)]], run)
        | some next =>
            let after :=
              if next.takesValue then
                match rest with
                | [] => readPlain run next
                | '=' :: value => .ok ([.switch next (some (String.ofList value))], run)
                | value => .ok ([.switch next (some (String.ofList value))], run)
              else
                match rest with
                | '=' :: value => .error (.unusedValue next (String.ofList value))
                | _ => readBundle known run next rest
            after.map fun found => (.switch s none :: found.1, found.2)

/-- A switch with a text attached to it. -/
def readAttached (known : List Switch) (run : List Word) (s : Switch) (spelling : String)
    (attached : Attached) : Reading :=
  if s.takesValue then .ok ([.switch s (some attached.text)], run)
  else if attached.afterSign || attached.text.isEmpty || "--".toList.isPrefixOf spelling.toList then
    .error (.unusedValue s attached.text)
  else readBundle known run s attached.text.toList

/-- A word that is no operand, with the run of operands after it. -/
def readWord (known : List Switch) (w : Word) (run : List Word) : Reading :=
  match w.form with
  | .switch s _ none => readPlain run s
  | .switch s spelling (some attached) => readAttached known run s spelling attached
  | _ => .ok ([.stray [w.text]], run)

/-- The run of operands at the front, and the other words each with the run after it. -/
def split : List Word → List Word × List (Word × List Word)
  | [] => ([], [])
  | w :: rest =>
      let (run, more) := split rest
      if w.inRun then (w :: run, more) else ([], (w, run) :: more)

/-- The runs and the switches make up all words. -/
theorem split_append
    (ws : List Word) :
    (split ws).1 ++ (split ws).2.flatMap (fun entry => entry.1 :: entry.2) = ws := by
  induction ws with
  | nil => rfl
  | cons w rest ih =>
      by_cases h : w.inRun = true
      · simp [split, h, ih]
      · simp [split, h, ih]

/-- The items of a run; `taken` says that the operands were taken before. -/
def runItems (taken : Bool) (run : List Word) : List Item × Bool :=
  if run.isEmpty then ([], taken)
  else if !taken && run.any Word.isOperand then
    ([.operands ((run.filter Word.isOperand).map Word.text)], true)
  else ([.stray (run.map Word.text)], taken)

/-- The items of switches with the runs after them, up to the first fault. -/
def switchItems (known : List Switch) (taken : Bool) : List (Word × List Word) → List Item
  | [] => []
  | (w, run) :: more =>
      match readWord known w run with
      | .error fault => [.broken fault]
      | .ok (items, rest) =>
          let (operands, taken) := runItems taken rest
          items ++ operands ++ switchItems known taken more

/-- The items after a command. -/
def commandItems (known : List Switch) (ws : List Word) : List Item :=
  let (run, more) := split ws
  let (operands, taken) := runItems false run
  operands ++ switchItems known taken more

/-- The items before a command and the command itself, which takes all words after it.  A separator
before the command counts as its word.  No switch before the command takes a value. -/
def frontItems (known : List Switch) : List Word → List Item
  | [] => []
  | w :: rest =>
      match w.form, rest with
      | .operand, _ => [.operands (w.text :: rest.map Word.text)]
      | .separator, [] => [.stray [w.text]]
      | .separator, _ => [.operands (w.text :: rest.map Word.text)]
      | _, _ =>
          match readWord known w [] with
          | .error fault => [.broken fault]
          | .ok (items, _) => items ++ frontItems known rest

end CommandLine
end TypeGraph
