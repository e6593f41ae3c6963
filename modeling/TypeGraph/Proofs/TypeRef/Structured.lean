import TypeGraph.Proofs.Json.Fields
import TypeGraph.Proofs.TypeRef.RoundTrip

/-!
# What structured references denote

A structured reference has one of four forms, told apart by the fields that are there: the first of
`primitive`, `fqn`, `collection` and `union` that is there decides, and the fields after it are not
looked at.  However it is spelled, a reference is made of primitives, types with a name, arrays, maps
and unions of two members at least.

**Results.**
* `decodeObject_eq_ok_iff`: the reader of structured references, form by form.
* `wellFormed_of_decode`: what a reference that was read is made of.
-/

namespace TypeGraph

open Json (Holds ListsAll)

namespace TypeRef

/-- The reference that the object of a collection denotes. -/
inductive CollectionRead (inner : Json.Fields) : TypeRef → Prop
  | intro
      {kind : CollectionKind}
      {element : TypeRef}
      (hkind : CollectionKind.ofJson? (inner.get "kind") = some kind)
      (hpresent : inner.has "elementtype" = true)
      (helement : decode (inner.get "elementtype") = .ok element) :
      CollectionRead inner (ofCollection kind element)

/-- The members that the object of a union denotes. -/
def ChoiceRead (choice : Json.Fields) (members : List TypeRef) : Prop :=
  ListsAll (fun item member => decode item = .ok member) (choice.get "types") members ∧
    2 ≤ members.length

/-- The reference that an object denotes, by the form of the object. -/
inductive ReadFrom (fields : Json.Fields) : TypeRef → Prop
  | primitive
      {p : Primitive}
      (hname : (fields.get "primitive").string?.bind Primitive.ofName? = some p) :
      ReadFrom fields (.primitive p)
  | named
      {fqn : String}
      (hp : fields.has "primitive" = false)
      (hfqn : (fields.get "fqn").name? = some fqn) :
      ReadFrom fields (.named fqn)
  | collection
      {r : TypeRef}
      (hp : fields.has "primitive" = false)
      (hf : fields.has "fqn" = false)
      (hinner : Holds CollectionRead (fields.get "collection") r) :
      ReadFrom fields r
  | union
      {members : List TypeRef}
      (hp : fields.has "primitive" = false)
      (hf : fields.has "fqn" = false)
      (hc : fields.has "collection" = false)
      (hchoice : Holds ChoiceRead (fields.get "union") members) :
      ReadFrom fields (.union members)

section Objects

variable {fields : Json.Fields} {r : TypeRef}

/-- What is read from an object is read in one of the four forms. -/
theorem readFrom_of_decodeObject
    (h : decodeObject fields = .ok r) :
    ReadFrom fields r := by
  revert h
  fun_cases decodeObject fields with
  | case1 given hgiven p hp =>
      rintro ⟨⟩
      exact .primitive (by rwa [Json.Fields.get_of_lookup hgiven])
  | case3 hp given hgiven fqn hfqn =>
      rintro ⟨⟩
      exact .named (Json.Fields.has_eq_false_iff.2 hp) (by rwa [Json.Fields.get_of_lookup hgiven])
  | case7 hp hf inner hinner kindGiven kind hkind given hgiven =>
      intro h
      obtain ⟨element, helement, hr⟩ := bind_eq_ok_iff.1 h
      cases hr
      refine .collection (Json.Fields.has_eq_false_iff.2 hp) (Json.Fields.has_eq_false_iff.2 hf)
        ⟨inner, Json.Fields.get_of_lookup hinner,
          .intro hkind (Json.Fields.has_of_lookup hgiven) ?_⟩
      rwa [Json.Fields.get_of_lookup hgiven]
  | case9 hp hf hc choice hchoice first second rest hitems =>
      intro h
      obtain ⟨members, hmembers, hr⟩ := bind_eq_ok_iff.1 h
      cases hr
      rw [decodeAll_eq_mapM, mapM_eq_ok_iff] at hmembers
      refine .union (Json.Fields.has_eq_false_iff.2 hp) (Json.Fields.has_eq_false_iff.2 hf)
        (Json.Fields.has_eq_false_iff.2 hc) ⟨choice, Json.Fields.get_of_lookup hchoice,
          ⟨first :: second :: rest, ?_, hmembers⟩, by simp [← hmembers.length_eq]⟩
      rw [Json.Fields.get_of_lookup hitems]
      exact .given _
  | _ => rintro ⟨⟩

/-- An object is read as what it denotes in its form. -/
theorem ReadFrom.decodeObject
    (h : ReadFrom fields r) :
    decodeObject fields = .ok r := by
  cases h with
  | @primitive p hname =>
      have hne : fields.get "primitive" ≠ .null := fun hnull => by simp [hnull, Json.string?] at hname
      rw [TypeRef.decodeObject, Json.Fields.lookup_of_get rfl hne]
      simp only [hname]
  | @named fqn hp hfqn =>
      have hne : fields.get "fqn" ≠ .null := fun hnull => by simp [hnull, Json.name?] at hfqn
      rw [TypeRef.decodeObject, Json.Fields.has_eq_false_iff.1 hp, Json.Fields.lookup_of_get rfl hne]
      simp only [hfqn]
  | collection hp hf hinner =>
      obtain ⟨inner, hinner, hkind, hpresent, helement⟩ := hinner
      exact decodeObject_collection (Json.Fields.has_eq_false_iff.1 hp)
        (Json.Fields.has_eq_false_iff.1 hf) (Json.Fields.lookup_of_get hinner (by simp)) hkind
        (Json.Fields.lookup_of_has hpresent) helement
  | union hp hf hc hchoice =>
      obtain ⟨choice, hchoice, ⟨items, hlist, hmembers⟩, htwo⟩ := hchoice
      rw [← hmembers.length_eq] at htwo
      obtain _ | ⟨first, _ | ⟨second, rest⟩⟩ := items
      · simp at htwo
      · simp at htwo
      · have hitems := Json.lists_eq_array hlist (by simp)
        have hall := decodeAll_eq_mapM (first :: second :: rest) ▸ mapM_eq_ok_iff.2 hmembers
        exact decodeObject_union (Json.Fields.has_eq_false_iff.1 hp)
          (Json.Fields.has_eq_false_iff.1 hf) (Json.Fields.has_eq_false_iff.1 hc)
          (Json.Fields.lookup_of_get hchoice (by simp)) (Json.Fields.lookup_of_get hitems (by simp))
          hall

/-- The reader of structured references, form by form. -/
theorem decodeObject_eq_ok_iff :
    decodeObject fields = .ok r ↔ ReadFrom fields r :=
  ⟨readFrom_of_decodeObject, ReadFrom.decodeObject⟩

/-- What is read from a value is read from a compact text or from an object. -/
theorem decode_eq_ok_iff
    {value : Json} :
    decode value = .ok r ↔
      (∃ text, value = .string text ∧ parse text = .ok r) ∨
        ∃ fields, value = .object fields ∧ ReadFrom fields r := by
  cases value with
  | string text => simp [decode]
  | object fields => simp [decode, decodeObject_eq_ok_iff]
  | _ => simp [decode]

end Objects

section WellFormed

/-- A reference is made of primitives, types with a name, arrays, maps and unions of two members at
least. -/
inductive WellFormed : TypeRef → Prop
  | primitive
      (p : Primitive) :
      WellFormed (.primitive p)
  | named
      {fqn : String}
      (hne : fqn ≠ "") :
      WellFormed (.named fqn)
  | array
      {element : TypeRef}
      (helement : WellFormed element) :
      WellFormed (.array element)
  | map
      {element : TypeRef}
      (helement : WellFormed element) :
      WellFormed (.map element)
  | union
      {members : List TypeRef}
      (htwo : 2 ≤ members.length)
      (hmembers : ∀ member ∈ members, WellFormed member) :
      WellFormed (.union members)

theorem Proper.wellFormed
    {r : TypeRef}
    (h : r.Proper) :
    r.WellFormed := by
  induction h with
  | primitive p => exact .primitive p
  | named hname hdot => exact .named (ne_empty_of_mem hdot)
  | array _ ih => exact .array ih
  | map _ ih => exact .map ih
  | union htwo _ ih => exact .union htwo ih

theorem WellFormed.ofCollection
    {kind : CollectionKind}
    {element : TypeRef}
    (h : element.WellFormed) :
    (ofCollection kind element).WellFormed := by
  cases kind with
  | array => exact .array h
  | map => exact .map h

theorem sizeOf_lt_ofCollection
    (kind : CollectionKind)
    (element : TypeRef) :
    sizeOf element < sizeOf (TypeRef.ofCollection kind element) := by
  cases kind <;> simp [TypeRef.ofCollection]

/-- Every reference that was read is well formed, however it was spelled. -/
theorem wellFormed_of_decode
    {value : Json}
    {r : TypeRef}
    (h : decode value = .ok r) :
    r.WellFormed := by
  rcases decode_eq_ok_iff.1 h with ⟨text, -, hparse⟩ | ⟨fields, -, hread⟩
  · exact (proper_of_parse hparse).wellFormed
  · cases hread with
    | primitive hname => exact .primitive _
    | named hp hfqn => exact .named (Json.name?_eq_some_iff.1 hfqn).2
    | collection hp hf hinner =>
        obtain ⟨inner, -, hkind, hpresent, helement⟩ := hinner
        exact (wellFormed_of_decode helement).ofCollection
    | union hp hf hc hchoice =>
        obtain ⟨choice, -, hmembers, htwo⟩ := hchoice
        refine .union htwo fun member hmember => ?_
        obtain ⟨item, hitem⟩ := hmembers.exists_read hmember
        exact wellFormed_of_decode hitem
  termination_by sizeOf r
  decreasing_by
    · subst_vars
      exact sizeOf_lt_ofCollection _ _
    · subst_vars
      have hlt := List.sizeOf_lt_of_mem hmember
      simp
      omega

end WellFormed

end TypeRef
end TypeGraph
