import TypeGraph.TypeRef.Compact

/-!
# Structured type references

A reference may be spelled as an object with one of the fields `primitive`, `fqn`, `collection` and
`union`, in this order of precedence, and each reference inside it may again be an object or a
compact text.

**Results.**
* `sizeOf_lookup_lt`: the value of a field is smaller than the object.
-/

namespace TypeGraph

/-- The value of a field is smaller than the list of fields. -/
theorem Json.Fields.sizeOf_lookup_lt
    {fields : Json.Fields}
    {name : String}
    {value : Json}
    (h : fields.lookup name = some value) :
    sizeOf value < sizeOf fields := by
  induction fields with
  | nil => simp at h
  | cons field rest ih =>
      obtain ⟨known, old⟩ := field
      by_cases hk : name = known
      · subst hk
        simp at h
        subst h
        simp
        omega
      · have hk' : (name == known) = false := by simpa using hk
        simp [List.lookup_cons, hk'] at h
        have := ih h
        simp
        omega

namespace TypeRef

/-- The kinds of collections. -/
inductive CollectionKind where
  | array
  | map

/-- The kind of a collection by its name. -/
def CollectionKind.ofJson? : Json → Option CollectionKind
  | .string "array" => some .array
  | .string "map" => some .map
  | _ => none

/-- A collection of an element type. -/
def ofCollection : CollectionKind → TypeRef → TypeRef
  | .array, element => .array element
  | .map, element => .map element

mutual

/-- The reference of a value. -/
def decode : Json → Except RefFault TypeRef
  | .string text => parse text
  | .object fields => decodeObject fields
  | _ => .error .notReference
  termination_by value => (sizeOf value, 1)

/-- The reference of an object. -/
def decodeObject (fields : Json.Fields) : Except RefFault TypeRef :=
  match fields.lookup "primitive" with
  | some given =>
      match given.string?.bind Primitive.ofName? with
      | some p => .ok (.primitive p)
      | none => .error (.unknownPrimitive given)
  | none =>
      match fields.lookup "fqn" with
      | some given =>
          match given.name? with
          | some fqn => .ok (.named fqn)
          | none => .error .emptyFqn
      | none =>
          match _hc : fields.lookup "collection" with
          | some (.object collection) =>
              let given := Json.Fields.get collection "kind"
              match CollectionKind.ofJson? given with
              | none => .error (.unknownCollection given)
              | some kind =>
                  match _he : List.lookup "elementtype" collection with
                  | none => .error .missingElement
                  | some element => return ofCollection kind (← decode element)
          | some _ => .error .collectionShape
          | none =>
              match _hu : fields.lookup "union" with
              | some (.object choice) =>
                  match _hm : List.lookup "types" choice with
                  | some (.array (first :: second :: rest)) =>
                      return .union (← decodeAll (first :: second :: rest))
                  | _ => .error .unionShape
              | some _ => .error .unionShape
              | none => .error .noForm
  termination_by (sizeOf fields, 0)
  decreasing_by
    · have h₁ := Json.Fields.sizeOf_lookup_lt _hc
      have h₂ := Json.Fields.sizeOf_lookup_lt _he
      simp at h₁
      simp [Prod.lex_def]
      omega
    · have h₁ := Json.Fields.sizeOf_lookup_lt _hu
      have h₂ := Json.Fields.sizeOf_lookup_lt _hm
      simp at h₁ h₂
      simp [Prod.lex_def]
      omega

/-- The references of several values, in order. -/
def decodeAll : List Json → Except RefFault (List TypeRef)
  | [] => return []
  | value :: rest => do
      let first ← decode value
      return first :: (← decodeAll rest)
  termination_by values => (sizeOf values, 0)

end

end TypeRef
end TypeGraph
