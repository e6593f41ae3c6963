import TypeGraph.Json.Basic
import TypeGraph.Number.Shortest
import TypeGraph.Text.Half

/-!
# Writing a document

A value is written on one line without white space, in ASCII: every character outside the printable
ASCII range is written as one or two escaped code units, and half of a pair as the unit that it is.
`sortNames` puts the fields of every object in ascending order of their names.
-/

namespace TypeGraph
namespace Json

/-- A code unit as an escape. -/
def unitEscape (unit : Nat) : List Char :=
  '\x5c' :: 'u' :: Text.hexDigits 4 unit

/-- One character of a written text. -/
def writeChar (c : Char) : List Char :=
  if c = '\x22' then ['\x5c', '\x22']
  else if c = '\x5c' then ['\x5c', '\x5c']
  else if c = '\n' then ['\x5c', 'n']
  else if c = '\r' then ['\x5c', 'r']
  else if c = '\t' then ['\x5c', 't']
  else if c = '\x08' then ['\x5c', 'b']
  else if c = '\x0c' then ['\x5c', 'f']
  else if ' ' ≤ c ∧ c ≤ '~' then [c]
  else if c.toNat < 0x10000 then unitEscape c.toNat
  else
    match Text.half? c with
    | some unit => unitEscape unit
    | none =>
        let offset := c.toNat - 0x10000
        unitEscape (0xD800 + offset / 0x400) ++ unitEscape (0xDC00 + offset % 0x400)

/-- A written text with its quotation marks. -/
def writeText (text : String) : String :=
  String.ofList ('\x22' :: (text.toList.flatMap writeChar ++ ['\x22']))

/-- A written number; infinities and what is not a number have spellings of their own. -/
def writeNumber : Number → String
  | .real .nan => "NaN"
  | .real (.infinite false) => "Infinity"
  | .real (.infinite true) => "-Infinity"
  | other => other.text

mutual

/-- A written value. -/
def write : Json → String
  | .null => "null"
  | .bool b => if b then "true" else "false"
  | .number n => writeNumber n
  | .string s => writeText s
  | .array items => "[" ++ ",".intercalate (writeItems items) ++ "]"
  | .object fields => "\x7b" ++ ",".intercalate (writeFields fields) ++ "\x7d"

/-- The written items of an array. -/
def writeItems : List Json → List String
  | [] => []
  | item :: rest => write item :: writeItems rest

/-- The written fields of an object. -/
def writeFields : List (String × Json) → List String
  | [] => []
  | (name, value) :: rest => (writeText name ++ ":" ++ write value) :: writeFields rest

end

mutual

/-- The value with the fields of every object in ascending order of their names. -/
def sortNames : Json → Json
  | .array items => .array (sortItems items)
  | .object fields => .object ((sortFields fields).mergeSort fun a b => decide (a.1 ≤ b.1))
  | other => other

/-- The items of an array, each with its names sorted. -/
def sortItems : List Json → List Json
  | [] => []
  | item :: rest => sortNames item :: sortItems rest

/-- The fields of an object, each value with its names sorted. -/
def sortFields : List (String × Json) → List (String × Json)
  | [] => []
  | (name, value) :: rest => (name, sortNames value) :: sortFields rest

end

end Json
end TypeGraph
