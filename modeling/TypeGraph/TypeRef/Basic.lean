/-!
# Type references

A type reference is a primitive, a named type, an array or a map of an element type, or a union.
The keys of a map are always strings, so a map names its element alone.

**Results.**
* `Primitive.ofName?_eq_some_iff`: the six names of the primitives, and no others.
-/

namespace TypeGraph

/-- The types that no assembly declares. -/
inductive Primitive where
  | string
  | number
  | boolean
  | date
  | json
  | any
  deriving DecidableEq, Repr

namespace Primitive

/-- The name of a primitive. -/
def name : Primitive → String
  | .string => "string"
  | .number => "number"
  | .boolean => "boolean"
  | .date => "date"
  | .json => "json"
  | .any => "any"

/-- Every primitive. -/
def all : List Primitive :=
  [.string, .number, .boolean, .date, .json, .any]

/-- The primitive of a name. -/
def ofName? (name : String) : Option Primitive :=
  all.find? fun p => p.name == name

/-- A name names a primitive exactly when it is that primitive's own. -/
theorem ofName?_eq_some_iff
    {name : String}
    {p : Primitive} :
    ofName? name = some p ↔ p.name = name := by
  constructor
  · intro h
    simpa using List.find?_some h
  · rintro rfl
    cases p <;> decide

end Primitive

/-- A type reference. -/
inductive TypeRef where
  | primitive (primitive : Primitive)
  | named (fqn : String)
  | array (element : TypeRef)
  | map (element : TypeRef)
  | union (members : List TypeRef)

namespace TypeRef

instance : Inhabited TypeRef := ⟨.primitive .any⟩

mutual

/-- The compact spelling of a reference. -/
def text : TypeRef → String
  | .primitive p => p.name
  | .named fqn => fqn
  | .array element => "Array<" ++ text element ++ ">"
  | .map element => "Map<string, " ++ text element ++ ">"
  | .union members => " | ".intercalate (texts members)

/-- The compact spellings of the members of a union. -/
def texts : List TypeRef → List String
  | [] => []
  | member :: rest => text member :: texts rest

end

mutual

/-- The names of the types mentioned anywhere in a reference, in reading order. -/
def mentioned : TypeRef → List String
  | .primitive _ => []
  | .named fqn => [fqn]
  | .array element => mentioned element
  | .map element => mentioned element
  | .union members => mentionedIn members

/-- The names mentioned in the members of a union. -/
def mentionedIn : List TypeRef → List String
  | [] => []
  | member :: rest => mentioned member ++ mentionedIn rest

end

/-- The spellings of the members of a union, one by one. -/
theorem texts_eq_map (members : List TypeRef) : texts members = members.map text := by
  induction members with
  | nil => rfl
  | cons member rest ih => simp [texts, ih]

/-- The names mentioned in a list of references, one reference after the other. -/
theorem mentionedIn_eq_flatMap
    (members : List TypeRef) :
    mentionedIn members = members.flatMap mentioned := by
  induction members with
  | nil => rfl
  | cons member rest ih => simp [mentionedIn, ih]

end TypeRef
end TypeGraph
