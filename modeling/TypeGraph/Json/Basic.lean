import TypeGraph.Number.Binary64

/-!
# Document values

A manifest, a sources file and a look-up key are JSON values.  The fields of an object keep the
order in which their names first appear, and the last value given for a name is the one that
counts; integers and reals are different numbers.

**Results.**
* `Fields.get_put_self`, `Fields.get_put_of_ne`: what a field holds after another is written.
* `Fields.names_put`: writing a field keeps the order of the names.
-/

namespace TypeGraph

/-- A JSON value. -/
inductive Json where
  | null
  | bool (value : Bool)
  | number (value : Number)
  | string (value : String)
  | array (items : List Json)
  | object (fields : List (String × Json))

namespace Json

instance : Inhabited Json := ⟨.null⟩

/-- The fields of an object, in the order of their names' first appearance. -/
abbrev Fields := List (String × Json)

namespace Fields

/-- The value of a field; an absent field reads as null. -/
def get (fields : Fields) (name : String) : Json :=
  (fields.lookup name).getD .null

/-- The field is present, whatever its value. -/
def has (fields : Fields) (name : String) : Bool :=
  (fields.lookup name).isSome

/-- Write a field: in place when its name is known, at the end otherwise. -/
def put : Fields → String → Json → Fields
  | [], name, value => [(name, value)]
  | (known, old) :: rest, name, value =>
      if name == known then (known, value) :: rest
      else (known, old) :: put rest name value

@[simp] theorem lookup_put_self
    (fields : Fields)
    (name : String)
    (value : Json) :
    (fields.put name value).lookup name = some value := by
  induction fields with
  | nil => simp [put]
  | cons field rest ih =>
      obtain ⟨known, old⟩ := field
      by_cases h : name = known
      · simp [put, h]
      · have h' : (name == known) = false := by simpa using h
        simp [put, List.lookup_cons, h', ih]

theorem lookup_put_of_ne
    (fields : Fields)
    {name other : String}
    (value : Json)
    (h : other ≠ name) :
    (fields.put name value).lookup other = fields.lookup other := by
  induction fields with
  | nil =>
      have h' : (other == name) = false := by simpa using h
      simp [put, List.lookup_cons, h']
  | cons field rest ih =>
      obtain ⟨known, old⟩ := field
      by_cases hk : name = known
      · subst hk
        have h' : (other == name) = false := by simpa using h
        simp [put, List.lookup_cons, h']
      · have hk' : (name == known) = false := by simpa using hk
        by_cases ho : other = known
        · simp [put, hk', ho]
        · have ho' : (other == known) = false := by simpa using ho
          simp [put, List.lookup_cons, hk', ho', ih]

/-- A field that was just written holds its value. -/
@[simp] theorem get_put_self
    (fields : Fields)
    (name : String)
    (value : Json) :
    (fields.put name value).get name = value := by
  simp [get]

/-- Writing a field leaves the others alone. -/
theorem get_put_of_ne
    (fields : Fields)
    {name other : String}
    (value : Json)
    (h : other ≠ name) :
    (fields.put name value).get other = fields.get other := by
  simp [get, lookup_put_of_ne fields value h]

/-- Writing a field keeps the order of the names. -/
theorem names_put
    (fields : Fields)
    (name : String)
    (value : Json) :
    (fields.put name value).map Prod.fst =
      if name ∈ fields.map Prod.fst then fields.map Prod.fst
      else fields.map Prod.fst ++ [name] := by
  induction fields with
  | nil => simp [put]
  | cons field rest ih =>
      obtain ⟨known, old⟩ := field
      by_cases h : name = known
      · simp [put, h]
      · have h' : (name == known) = false := by simpa using h
        simp only [put, h', Bool.false_eq_true, if_false, List.map_cons, ih, List.mem_cons, h,
          false_or]
        split <;> simp

end Fields

/-- Null, false, zeros and empty values count as nothing. -/
def isNothing : Json → Bool
  | .null => true
  | .bool b => !b
  | .number n => n.isZero
  | .string s => s.isEmpty
  | .array items => items.isEmpty
  | .object fields => fields.isEmpty

/-- The text of a string value. -/
def string? : Json → Option String
  | .string s => some s
  | _ => none

/-- The text of a string value that is not empty. -/
def name? : Json → Option String
  | .string s => if s.isEmpty then none else some s
  | _ => none

/-- The fields of an object. -/
def fields? : Json → Option Fields
  | .object fields => some fields
  | _ => none

/-- The items of an array. -/
def items? : Json → Option (List Json)
  | .array items => some items
  | _ => none

end Json
end TypeGraph
