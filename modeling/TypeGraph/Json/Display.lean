import TypeGraph.Json.Basic
import TypeGraph.Number.Shortest
import TypeGraph.Text.Quoted

/-!
# Showing a value in a message

A text shows as it is; every other value shows in full, with the texts inside it quoted.
-/

namespace TypeGraph
namespace Json

mutual

/-- A value inside another one. -/
def displayNested : Json → String
  | .null => "None"
  | .bool b => if b then "True" else "False"
  | .number n => n.text
  | .string s => Text.quoted s
  | .array items => "[" ++ ", ".intercalate (displayItems items) ++ "]"
  | .object fields => "\x7b" ++ ", ".intercalate (displayFields fields) ++ "\x7d"

/-- The items of an array. -/
def displayItems : List Json → List String
  | [] => []
  | item :: rest => displayNested item :: displayItems rest

/-- The fields of an object. -/
def displayFields : List (String × Json) → List String
  | [] => []
  | (name, value) :: rest => (Text.quoted name ++ ": " ++ displayNested value) :: displayFields rest

end

/-- A value in a message. -/
def display : Json → String
  | .string s => s
  | other => displayNested other

/-- A text shows as it is. -/
@[simp] theorem display_string (s : String) : display (.string s) = s := rfl

end Json
end TypeGraph
