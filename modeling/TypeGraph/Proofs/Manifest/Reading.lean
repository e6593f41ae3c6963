import TypeGraph.Proofs.Json.Fields
import TypeGraph.Proofs.Manifest.ParameterOrder
import TypeGraph.Proofs.Result

/-!
# What the members of a manifest are read from

For each reader of a member there is a relation between what stands in a document and what is read
from it.  It says which fields are looked at and what they must hold, and not in which order the
reader looks or how it words a refusal.

**Results.**
* `Parameter.decode_eq_ok_iff`, `Method.decode_eq_ok_iff`, `Property.decode_eq_ok_iff`,
  `Initializer.decode_eq_ok_iff`, `EnumMember.decode_eq_ok_iff`: each reader and its relation.
-/

namespace TypeGraph

namespace Json

theorem list_eq_ok_iff
    {fields : Fields}
    {field : String}
    {items : List Json} :
    fields.list field = .ok items ↔ Lists (fields.get field) items := by
  unfold Fields.list
  constructor
  · intro h
    split at h <;> cases h <;> rename_i hvalue <;> rw [hvalue]
    · exact .absent
    · exact .given _
  · intro h
    cases hvalue : fields.get field <;> rw [hvalue] at h <;> cases h <;> rfl

/-- A flag is read from what its field holds. -/
theorem flag_congr
    {fields fields' : Fields}
    {field : String}
    (h : fields'.get field = fields.get field) :
    fields'.flag field = fields.flag field := by
  rw [Fields.flag, Fields.flag, h]

/-- A text is read from what its field holds. -/
theorem optionalString_congr
    {fields fields' : Fields}
    {field : String}
    (h : fields'.get field = fields.get field) :
    fields'.optionalString field = fields.optionalString field := by
  rw [Fields.optionalString, Fields.optionalString, h]

/-- A record holds a type in its field `type`, and whether that is optional is told by the record or,
in the older spelling, by the reference itself. -/
structure HoldsType (fields : Fields) (type : TypeRef) (isOptional : Bool) : Prop where
  present : fields.has "type" = true
  type : TypeRef.decode (fields.get "type") = .ok type
  optional : ∃ flagged, fields.flag "optional" = .ok flagged ∧
    isOptional = (flagged || (fields.get "type").marksOptional)

end Json

open Json (Holds ListsAll HoldsType)

/-- What is read from a field for documentation. -/
inductive Docs.Read : Json → Docs → Prop
  | absent :
      Read .null .empty
  | given
      {inner : Json.Fields}
      {docs : Docs}
      (hsummary : inner.optionalString "summary" = .ok docs.summary)
      (hremarks : inner.optionalString "remarks" = .ok docs.remarks)
      (hdeprecated : inner.optionalString "deprecated" = .ok docs.deprecated)
      (hstability : inner.optionalString "stability" = .ok docs.stability) :
      Read (.object inner) docs

theorem Docs.docs_eq_ok_iff
    {fields : Json.Fields}
    {docs : Docs} :
    fields.docs = .ok docs ↔ Docs.Read (fields.get "docs") docs := by
  unfold Json.Fields.docs
  constructor
  · intro h
    split at h
    · rename_i hvalue
      cases h
      rw [hvalue]
      exact .absent
    · rename_i inner hvalue
      simp only [bind_eq_ok_iff, pure_eq_ok_iff] at h
      obtain ⟨summary, hsummary, remarks, hremarks, deprecated, hdeprecated, stability, hstability,
        rfl⟩ := h
      rw [hvalue]
      exact .given hsummary hremarks hdeprecated hstability
    · cases h
  · intro h
    cases hvalue : fields.get "docs" <;> rw [hvalue] at h <;> cases h
    · rfl
    · rename_i hsummary hremarks hdeprecated hstability
      simp only [bind_eq_ok_iff, pure_eq_ok_iff]
      exact ⟨_, hsummary, _, hremarks, _, hdeprecated, _, hstability, rfl⟩

@[simp] theorem TypeRef.decodeAt_eq_ok_iff
    {place : RefPlace}
    {value : Json}
    {r : TypeRef} :
    TypeRef.decodeAt place value = .ok r ↔ TypeRef.decode value = .ok r :=
  mapError_eq_ok_iff

namespace Parameter

/-- What is read from the fields of a parameter. -/
structure ReadFrom (fields : Json.Fields) (p : Parameter) : Prop where
  name : (fields.get "name").name? = some p.name
  type : HoldsType fields p.type p.isOptional
  isVariadic : fields.flag "variadic" = .ok p.isVariadic

theorem decode_object_eq_ok_iff
    {owner : ParameterOwner}
    {fields : Json.Fields}
    {p : Parameter} :
    decode owner (.object fields) = .ok p ↔ ReadFrom fields p := by
  constructor
  · intro h
    simp only [decode] at h
    split at h
    · rename_i name hname
      split at h
      · simp [bind_eq_ok_iff] at h
      · rename_i hpresent
        simp only [bind_eq_ok_iff, pure_eq_ok_iff, TypeRef.decodeAt_eq_ok_iff] at h
        obtain ⟨type, htype, flagged, hflagged, isVariadic, hvariadic, rfl⟩ := h
        exact ⟨hname, ⟨by simpa using hpresent, htype, flagged, hflagged, rfl⟩, hvariadic⟩
    · simp at h
  · rintro ⟨hname, ⟨hpresent, htype, flagged, hflagged, hoptional⟩, hvariadic⟩
    simp only [decode, hname, hpresent, Bool.not_true, Bool.false_eq_true, if_false, bind_eq_ok_iff,
      pure_eq_ok_iff, TypeRef.decodeAt_eq_ok_iff]
    exact ⟨_, htype, _, hflagged, _, hvariadic, by rw [← hoptional]⟩

/-- The reader of parameters and its relation. -/
theorem decode_eq_ok_iff
    {owner : ParameterOwner}
    {value : Json}
    {p : Parameter} :
    decode owner value = .ok p ↔ Holds ReadFrom value p := by
  cases value with
  | object fields => rw [decode_object_eq_ok_iff, Json.holds_object]
  | _ => simp [decode, Holds]

/-- What is read from a field for parameters: their names differ, and they are in order. -/
structure ListRead (value : Json) (ps : List Parameter) : Prop where
  items : ListsAll (Holds ReadFrom) value ps
  distinct : (ps.map name).Nodup
  ordered : ∃ required optional last, Layout required optional last ps

/-- The reader of lists of parameters and its relation. -/
theorem decodeList_eq_ok_iff
    {owner : ParameterOwner}
    {value : Json}
    {ps : List Parameter} :
    decodeList owner value = .ok ps ↔ ListRead value ps := by
  constructor
  · intro h
    unfold decodeList at h
    split at h
    · cases h
      exact ⟨⟨[], .absent, .nil⟩, List.nodup_nil, [], [], none, layout_nil⟩
    · rename_i items
      simp only [bind_eq_ok_iff, mapM_eq_ok_iff, decode_eq_ok_iff] at h
      obtain ⟨ps', hitems, h⟩ := h
      split at h
      · simp [bind_eq_ok_iff] at h
      · rename_i hrepeats
        simp only [bind_eq_ok_iff, pure_eq_ok_iff] at h
        obtain ⟨_, hordered, rfl⟩ := h
        obtain ⟨required, optional, last, hlayout, -⟩ := checkOrder_eq_ok_iff.1 hordered
        refine ⟨⟨items, .given items, hitems⟩, ?_, required, optional, last, hlayout⟩
        exact (firstRepeat?_eq_none_iff _).1 (by simpa using hrepeats)
    · cases h
  · rintro ⟨⟨items, hlist, hitems⟩, hdistinct, required, optional, last, hlayout⟩
    cases hlist with
    | absent =>
        cases hitems
        rfl
    | given items =>
        have hrepeats : (firstRepeat? (ps.map name)).isSome = false := by
          rw [(firstRepeat?_eq_none_iff _).2 hdistinct, Option.isSome_none]
        have hordered : checkOrder owner false ps = .ok () :=
          checkOrder_eq_ok_iff.2 ⟨required, optional, last, hlayout, by simp⟩
        simp only [decodeList, bind_eq_ok_iff, mapM_eq_ok_iff, decode_eq_ok_iff]
        refine ⟨ps, hitems, ?_⟩
        simp [hrepeats, hordered]

end Parameter

/-- What a method returns, as it is read from a field. -/
inductive Method.Returns : Json → Option TypeRef → Bool → Prop
  | absent :
      Returns .null none false
  | void :
      Returns (.string "void") none false
  | wrapped
      {fields : Json.Fields}
      {type : TypeRef}
      {isOptional : Bool}
      (htype : HoldsType fields type isOptional) :
      Returns (.object fields) (some type) isOptional
  | bare
      {value : Json}
      {type : TypeRef}
      {isOptional : Bool}
      (hvoid : value ≠ .string "void")
      (hbare : ∀ fields : Json.Fields, value = .object fields → fields.has "type" = false)
      (htype : TypeRef.decode value = .ok type)
      (hoptional : isOptional = value.marksOptional) :
      Returns value (some type) isOptional

namespace Method

section Returns

variable {method : String} {value : Json} {returns : Option TypeRef} {isOptional : Bool}

theorem decodeReturns_wrapped_eq_ok_iff
    {fields : Json.Fields}
    (hpresent : fields.has "type" = true) :
    decodeReturns method (.object fields) = .ok (returns, isOptional) ↔
      ∃ type, returns = some type ∧ HoldsType fields type isOptional := by
  simp only [decodeReturns, Json.Fields.lookup_of_has hpresent, bind_eq_ok_iff, pure_eq_ok_iff,
    TypeRef.decodeAt_eq_ok_iff, Prod.mk.injEq]
  constructor
  · rintro ⟨type, htype, flagged, hflagged, rfl, rfl⟩
    exact ⟨type, rfl, hpresent, htype, flagged, hflagged, rfl⟩
  · rintro ⟨type, rfl, -, htype, flagged, hflagged, rfl⟩
    exact ⟨type, htype, flagged, hflagged, rfl, rfl⟩

/-- What is neither absent, nor `void`, nor a wrapper is read as a reference. -/
theorem decodeReturns_bare_eq_ok_iff
    (hnull : value ≠ .null)
    (hvoid : value ≠ .string "void")
    (hbare : ∀ fields : Json.Fields, value = .object fields → fields.has "type" = false) :
    decodeReturns method value = .ok (returns, isOptional) ↔
      ∃ type, returns = some type ∧ TypeRef.decode value = .ok type ∧
        isOptional = value.marksOptional := by
  have hreads : decodeReturns method value = (do
      let type ← TypeRef.decodeAt (.returns method) value
      return (some type, value.marksOptional)) := by
    cases value with
    | null => exact absurd rfl hnull
    | string text =>
        rw [decodeReturns]
        · rfl
        · exact hnull
        · exact hvoid
        · simp
    | object fields => simp only [decodeReturns, Json.Fields.has_eq_false_iff.1 (hbare fields rfl)]
    | _ => rfl
  simp only [hreads, bind_eq_ok_iff, pure_eq_ok_iff, TypeRef.decodeAt_eq_ok_iff, Prod.mk.injEq]
  constructor
  · rintro ⟨type, htype, rfl, rfl⟩
    exact ⟨type, rfl, htype, rfl⟩
  · rintro ⟨type, rfl, htype, rfl⟩
    exact ⟨type, htype, rfl, rfl⟩

/-- The reader of what a method returns and its relation. -/
theorem decodeReturns_eq_ok_iff :
    decodeReturns method value = .ok (returns, isOptional) ↔ Returns value returns isOptional := by
  constructor
  · intro h
    by_cases hnull : value = .null
    · subst hnull
      cases h
      exact .absent
    by_cases hvoid : value = .string "void"
    · subst hvoid
      cases h
      exact .void
    by_cases hwrapped : ∃ fields : Json.Fields, value = .object fields ∧ fields.has "type" = true
    · obtain ⟨fields, rfl, hpresent⟩ := hwrapped
      obtain ⟨type, rfl, htype⟩ := (decodeReturns_wrapped_eq_ok_iff hpresent).1 h
      exact .wrapped htype
    · have hbare : ∀ fields : Json.Fields, value = .object fields → fields.has "type" = false := by
        intro fields hfields
        simpa using fun hpresent => hwrapped ⟨fields, hfields, hpresent⟩
      obtain ⟨type, rfl, htype, hoptional⟩ := (decodeReturns_bare_eq_ok_iff hnull hvoid hbare).1 h
      exact .bare hvoid hbare htype hoptional
  · intro h
    cases h with
    | absent => rfl
    | void => rfl
    | wrapped htype =>
        exact (decodeReturns_wrapped_eq_ok_iff htype.present).2 ⟨_, rfl, htype⟩
    | bare hvoid hbare htype hoptional =>
        have hnull : value ≠ .null := by
          rintro rfl
          simp [TypeRef.decode] at htype
        exact (decodeReturns_bare_eq_ok_iff hnull hvoid hbare).2 ⟨_, rfl, htype, hoptional⟩

end Returns

/-- What is read from the fields of a method. -/
structure ReadFrom (fields : Json.Fields) (m : Method) : Prop where
  name : (fields.get "name").name? = some m.name
  returns : Returns (fields.get "returns") m.returns m.returnsOptional
  parameters : Parameter.ListRead (fields.get "parameters") m.parameters
  isStatic : fields.flag "static" = .ok m.isStatic
  isAbstract : fields.flag "abstract" = .ok m.isAbstract
  isAsync : fields.flag "async" = .ok m.isAsync
  isProtected : fields.flag "protected" = .ok m.isProtected
  docs : Docs.Read (fields.get "docs") m.docs

theorem decode_object_eq_ok_iff
    {fields : Json.Fields}
    {m : Method} :
    decode (.object fields) = .ok m ↔ ReadFrom fields m := by
  constructor
  · intro h
    simp only [decode] at h
    split at h
    · rename_i name hname
      simp only [bind_eq_ok_iff, pure_eq_ok_iff, Parameter.decodeList_eq_ok_iff,
        Docs.docs_eq_ok_iff] at h
      obtain ⟨⟨returns, isOptional⟩, hreturns, parameters, hparameters, isStatic, hstatic,
        isAbstract, habstract, isAsync, hasync, isProtected, hprotected, docs, hdocs, rfl⟩ := h
      exact ⟨hname, decodeReturns_eq_ok_iff.1 hreturns, hparameters, hstatic, habstract, hasync,
        hprotected, hdocs⟩
    · simp at h
  · rintro ⟨hname, hreturns, hparameters, hstatic, habstract, hasync, hprotected, hdocs⟩
    simp only [decode, hname, bind_eq_ok_iff, pure_eq_ok_iff, Parameter.decodeList_eq_ok_iff,
      Docs.docs_eq_ok_iff]
    exact ⟨_, decodeReturns_eq_ok_iff.2 hreturns, _, hparameters, _, hstatic, _, habstract, _,
      hasync, _, hprotected, _, hdocs, rfl⟩

/-- The reader of methods and its relation. -/
theorem decode_eq_ok_iff
    {value : Json}
    {m : Method} :
    decode value = .ok m ↔ Holds ReadFrom value m := by
  cases value with
  | object fields => rw [decode_object_eq_ok_iff, Json.holds_object]
  | _ => simp [decode, Holds]

end Method

namespace Property

/-- What is read from the fields of a property. -/
structure ReadFrom (fields : Json.Fields) (p : Property) : Prop where
  name : (fields.get "name").name? = some p.name
  type : HoldsType fields p.type p.isOptional
  isImmutable : fields.flag "immutable" = .ok p.isImmutable
  isStatic : fields.flag "static" = .ok p.isStatic
  isAbstract : fields.flag "abstract" = .ok p.isAbstract
  isProtected : fields.flag "protected" = .ok p.isProtected
  docs : Docs.Read (fields.get "docs") p.docs

theorem decode_object_eq_ok_iff
    {fields : Json.Fields}
    {p : Property} :
    decode (.object fields) = .ok p ↔ ReadFrom fields p := by
  constructor
  · intro h
    simp only [decode] at h
    split at h
    · rename_i name hname
      split at h
      · simp [bind_eq_ok_iff] at h
      · rename_i hpresent
        simp only [bind_eq_ok_iff, pure_eq_ok_iff, TypeRef.decodeAt_eq_ok_iff,
          Docs.docs_eq_ok_iff] at h
        obtain ⟨type, htype, flagged, hflagged, isImmutable, himmutable, isStatic, hstatic,
          isAbstract, habstract, isProtected, hprotected, docs, hdocs, rfl⟩ := h
        exact ⟨hname, ⟨by simpa using hpresent, htype, flagged, hflagged, rfl⟩, himmutable, hstatic,
          habstract, hprotected, hdocs⟩
    · simp at h
  · rintro ⟨hname, ⟨hpresent, htype, flagged, hflagged, hoptional⟩, himmutable, hstatic, habstract,
      hprotected, hdocs⟩
    simp only [decode, hname, hpresent, Bool.not_true, Bool.false_eq_true, if_false, bind_eq_ok_iff,
      pure_eq_ok_iff, TypeRef.decodeAt_eq_ok_iff, Docs.docs_eq_ok_iff]
    exact ⟨_, htype, _, hflagged, _, himmutable, _, hstatic, _, habstract, _, hprotected, _, hdocs,
      by rw [← hoptional]⟩

/-- The reader of properties and its relation. -/
theorem decode_eq_ok_iff
    {value : Json}
    {p : Property} :
    decode value = .ok p ↔ Holds ReadFrom value p := by
  cases value with
  | object fields => rw [decode_object_eq_ok_iff, Json.holds_object]
  | _ => simp [decode, Holds]

end Property

namespace Initializer

/-- What is read from the fields of an initializer. -/
structure ReadFrom (fields : Json.Fields) (i : Initializer) : Prop where
  parameters : Parameter.ListRead (fields.get "parameters") i.parameters
  isProtected : fields.flag "protected" = .ok i.isProtected
  docs : Docs.Read (fields.get "docs") i.docs

/-- What is read from a field for an initializer. -/
inductive Read : Json → Option Initializer → Prop
  | absent :
      Read .null none
  | given
      {fields : Json.Fields}
      {i : Initializer}
      (h : ReadFrom fields i) :
      Read (.object fields) (some i)

/-- The reader of initializers and its relation. -/
theorem decode_eq_ok_iff
    {value : Json}
    {i : Option Initializer} :
    decode value = .ok i ↔ Read value i := by
  constructor
  · intro h
    unfold decode at h
    split at h
    · cases h
      exact .absent
    · simp only [bind_eq_ok_iff, pure_eq_ok_iff, Parameter.decodeList_eq_ok_iff,
        Docs.docs_eq_ok_iff] at h
      obtain ⟨parameters, hparameters, isProtected, hprotected, docs, hdocs, rfl⟩ := h
      exact .given ⟨hparameters, hprotected, hdocs⟩
    · cases h
  · intro h
    cases h with
    | absent => rfl
    | given h =>
        simp only [decode, bind_eq_ok_iff, pure_eq_ok_iff, Parameter.decodeList_eq_ok_iff,
          Docs.docs_eq_ok_iff]
        exact ⟨_, h.parameters, _, h.isProtected, _, h.docs, rfl⟩

end Initializer

namespace EnumMember

/-- What is read from a member of an enum. -/
inductive Read : Json → EnumMember → Prop
  | text
      {name : String}
      (hne : name ≠ "") :
      Read (.string name) ⟨name, .empty⟩
  | given
      {fields : Json.Fields}
      {m : EnumMember}
      (hname : (fields.get "name").name? = some m.name)
      (hdocs : Docs.Read (fields.get "docs") m.docs) :
      Read (.object fields) m

/-- The reader of members of an enum and its relation. -/
theorem decode_eq_ok_iff
    {value : Json}
    {m : EnumMember} :
    decode value = .ok m ↔ Read value m := by
  constructor
  · intro h
    unfold decode at h
    split at h
    · cases h
    · rename_i name hne
      cases h
      exact .text fun hempty => hne (by rw [hempty])
    · split at h
      · rename_i name hname
        simp only [bind_eq_ok_iff, pure_eq_ok_iff, Docs.docs_eq_ok_iff] at h
        obtain ⟨docs, hdocs, rfl⟩ := h
        exact .given hname hdocs
      · simp at h
    · cases h
  · intro h
    cases h with
    | text hne =>
        unfold decode
        split
        · rename_i hempty
          cases hempty
          exact absurd rfl hne
        · rename_i heq
          cases heq
          rfl
        · rename_i heq
          cases heq
        · rename_i hstring _
          exact absurd rfl (hstring _)
    | given hname hdocs =>
        simp only [decode, hname, bind_eq_ok_iff, pure_eq_ok_iff, Docs.docs_eq_ok_iff]
        exact ⟨_, hdocs, rfl⟩

end EnumMember

/-- The names of the members of a type pass when they differ. -/
theorem checkNames_eq_ok_iff
    {kind : MemberKind}
    {names : List String}
    {done : Unit} :
    checkNames kind names = .ok done ↔ names.Nodup := by
  rw [checkNames, ← firstRepeat?_eq_none_iff]
  cases firstRepeat? names <;> simp

end TypeGraph
