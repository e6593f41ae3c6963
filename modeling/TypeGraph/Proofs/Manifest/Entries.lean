import TypeGraph.Manifest.Entry
import TypeGraph.Proofs.Manifest.Reading

/-!
# What the entries of a manifest are read from

The relations of the readers of type entries, of each of the three kinds.

**Results.**
* `TypeDef.decodeFqns_eq_ok_iff`, `TypeDef.decodeMembers_eq_ok_iff`, `TypeDef.decodeBase_eq_ok_iff`,
  `TypeDef.decodeBody_eq_ok_iff`: the parts of an entry.
* `TypeDef.decodeNames_eq_ok`: what the names of a type are read from.
* `TypeDef.decode_eq_ok_iff`: the reader of entries and its relation.
-/

namespace TypeGraph

open Json (Holds ListsAll)

variable {fields : Json.Fields}

/-- Full names are read item by item and differ from each other and from those seen before. -/
theorem TypeDef.decodeFqns_eq_ok_iff
    {field : String}
    {seen fqns : List String}
    {items : List Json} :
    decodeFqns field seen items = .ok fqns ↔
      List.Forall₂ (fun item fqn => entryFqn? item = some fqn) items fqns ∧ fqns.Nodup ∧
        ∀ fqn ∈ fqns, fqn ∉ seen := by
  induction items generalizing seen fqns with
  | nil =>
      rw [decodeFqns, List.forall₂_nil_left_iff]
      constructor
      · intro h
        cases h
        simp
      · rintro ⟨rfl, -⟩
        rfl
  | cons item rest ih =>
      rw [decodeFqns, List.forall₂_cons_left_iff]
      cases hitem : entryFqn? item with
      | none => simp
      | some fqn =>
          by_cases hseen : fqn ∈ seen
          · simp only [List.contains_iff_mem, hseen, if_true, reduceCtorEq, Option.some.injEq,
              false_iff]
            rintro ⟨⟨_, more, rfl, -, rfl⟩, -, hnew⟩
            exact hnew fqn (by simp) hseen
          · simp only [List.contains_iff_mem, hseen, if_false, bind_eq_ok_iff, pure_eq_ok_iff, ih,
              Option.some.injEq]
            constructor
            · rintro ⟨more, ⟨hmore, hdistinct, hnew⟩, rfl⟩
              refine ⟨⟨fqn, more, rfl, hmore, rfl⟩, List.nodup_cons.2 ⟨fun hmem => ?_, hdistinct⟩,
                List.forall_mem_cons.2 ⟨hseen, fun x hx hold => ?_⟩⟩
              · exact hnew fqn hmem (by simp)
              · exact hnew x hx (List.mem_cons_of_mem _ hold)
            · rintro ⟨⟨_, more, rfl, hmore, rfl⟩, hdistinct, hnew⟩
              obtain ⟨hfirst, hdistinct⟩ := List.nodup_cons.1 hdistinct
              refine ⟨more, ⟨hmore, hdistinct, fun x hx hold => ?_⟩, rfl⟩
              rcases List.mem_cons.1 hold with rfl | hold
              · exact hfirst hx
              · exact hnew x (List.mem_cons_of_mem _ hx) hold

/-- What is read from the fields of a class or an interface. -/
structure Members.ReadFrom (fields : Json.Fields) (m : Members) : Prop where
  methods : ListsAll (Holds Method.ReadFrom) (fields.get "methods") m.methods
  properties : ListsAll (Holds Property.ReadFrom) (fields.get "properties") m.properties
  interfaces : ListsAll (fun item fqn => TypeDef.entryFqn? item = some fqn)
    (fields.get "interfaces") m.interfaces
  methodsDistinct : (m.methods.map Method.name).Nodup
  propertiesDistinct : (m.properties.map Property.name).Nodup
  interfacesDistinct : m.interfaces.Nodup

namespace TypeDef

theorem decodeMembers_eq_ok_iff
    {m : Members} :
    decodeMembers fields = .ok m ↔ Members.ReadFrom fields m := by
  simp only [decodeMembers, bind_eq_ok_iff, pure_eq_ok_iff, Json.list_eq_ok_iff, mapM_eq_ok_iff,
    Method.decode_eq_ok_iff, Property.decode_eq_ok_iff, checkNames_eq_ok_iff, decodeFqns_eq_ok_iff]
  constructor
  · rintro ⟨methodItems, hmethodItems, methods, hmethods, propertyItems, hpropertyItems, properties,
      hproperties, _, hmethodNames, _, hpropertyNames, interfaceItems, hinterfaceItems, interfaces,
      ⟨hinterfaces, hdistinct, -⟩, rfl⟩
    exact ⟨⟨methodItems, hmethodItems, hmethods⟩, ⟨propertyItems, hpropertyItems, hproperties⟩,
      ⟨interfaceItems, hinterfaceItems, hinterfaces⟩, hmethodNames, hpropertyNames, hdistinct⟩
  · rintro ⟨⟨methodItems, hmethodItems, hmethods⟩, ⟨propertyItems, hpropertyItems, hproperties⟩,
      ⟨interfaceItems, hinterfaceItems, hinterfaces⟩, hmethodNames, hpropertyNames, hdistinct⟩
    exact ⟨methodItems, hmethodItems, _, hmethods, propertyItems, hpropertyItems, _, hproperties,
      (), hmethodNames, (), hpropertyNames, interfaceItems, hinterfaceItems, _,
      ⟨hinterfaces, hdistinct, by simp⟩, rfl⟩

/-- What is read from a field for the base of a class. -/
inductive BaseRead : Json → Option String → Prop
  | absent :
      BaseRead .null none
  | text
      {fqn : String}
      (hne : fqn ≠ "") :
      BaseRead (.string fqn) (some fqn)
  | heldNull
      {inner : Json.Fields}
      (hpresent : inner.has "fqn" = true)
      (hnull : inner.get "fqn" = .null) :
      BaseRead (.object inner) none
  | held
      {inner : Json.Fields}
      {fqn : String}
      (hfqn : (inner.get "fqn").name? = some fqn) :
      BaseRead (.object inner) (some fqn)

/-- The reader of bases and its relation. -/
theorem decodeBase_eq_ok_iff
    {value : Json}
    {base : Option String} :
    decodeBase value = .ok base ↔ BaseRead value base := by
  constructor
  · intro h
    unfold decodeBase at h
    split at h
    · cases h
      exact .absent
    · rename_i inner
      split at h
      · rename_i hnull
        cases h
        exact .heldNull (by simp [Json.Fields.has, hnull]) (by simp [Json.Fields.get, hnull])
      · split at h <;> cases h
        rename_i hfqn
        exact .held hfqn
    · rename_i hnull hobject
      split at h <;> cases h
      rename_i fqn hfqn
      obtain ⟨rfl, hne⟩ := Json.name?_eq_some_iff.1 hfqn
      exact .text hne
  · intro h
    cases h with
    | absent => rfl
    | text hne => simp [decodeBase, Json.name?, hne]
    | heldNull hpresent hnull =>
        simp only [decodeBase, Json.Fields.lookup_of_has hpresent, hnull]
    | held hfqn =>
        obtain ⟨hget, hne⟩ := Json.name?_eq_some_iff.1 hfqn
        simp [decodeBase, Json.Fields.lookup_of_get hget, Json.name?, hne]

/-- What is read from the fields of a type of each kind. -/
inductive BodyRead (fields : Json.Fields) : TypeKind → TypeBody → Prop
  | ofEnum
      {members : List EnumMember}
      (hmembers : ListsAll EnumMember.Read (fields.get "members") members)
      (hdistinct : (members.map EnumMember.name).Nodup) :
      BodyRead fields .enumKind (.ofEnum members)
  | ofInterface
      {members : Members}
      (hmembers : Members.ReadFrom fields members) :
      BodyRead fields .interfaceKind (.ofInterface members)
  | ofClass
      {base : Option String}
      {members : Members}
      {isAbstract : Bool}
      {initializer : Option Initializer}
      (hmembers : Members.ReadFrom fields members)
      (hbase : BaseRead (fields.get "base") base)
      (hinitializer : Initializer.Read (fields.get "initializer") initializer)
      (habstract : fields.flag "abstract" = .ok isAbstract) :
      BodyRead fields .classKind (.ofClass base members isAbstract initializer)

theorem decodeBody_eq_ok_iff
    {kind : TypeKind}
    {body : TypeBody} :
    decodeBody kind fields = .ok body ↔ BodyRead fields kind body := by
  constructor
  · intro h
    cases kind with
    | enumKind =>
        simp only [decodeBody, bind_eq_ok_iff, pure_eq_ok_iff, Json.list_eq_ok_iff, mapM_eq_ok_iff,
          EnumMember.decode_eq_ok_iff, checkNames_eq_ok_iff] at h
        obtain ⟨items, hlist, members, hitems, _, hdistinct, rfl⟩ := h
        exact .ofEnum ⟨items, hlist, hitems⟩ hdistinct
    | interfaceKind =>
        simp only [decodeBody, bind_eq_ok_iff, pure_eq_ok_iff, decodeMembers_eq_ok_iff] at h
        obtain ⟨members, hmembers, rfl⟩ := h
        exact .ofInterface hmembers
    | classKind =>
        simp only [decodeBody, bind_eq_ok_iff, pure_eq_ok_iff, decodeMembers_eq_ok_iff,
          decodeBase_eq_ok_iff, Initializer.decode_eq_ok_iff] at h
        obtain ⟨members, hmembers, base, hbase, initializer, hinitializer, isAbstract, habstract,
          rfl⟩ := h
        exact .ofClass hmembers hbase hinitializer habstract
  · intro h
    cases h with
    | ofEnum hmembers hdistinct =>
        obtain ⟨items, hlist, hitems⟩ := hmembers
        simp only [decodeBody, bind_eq_ok_iff, pure_eq_ok_iff, Json.list_eq_ok_iff, mapM_eq_ok_iff,
          EnumMember.decode_eq_ok_iff, checkNames_eq_ok_iff]
        exact ⟨items, hlist, _, hitems, (), hdistinct, rfl⟩
    | ofInterface hmembers =>
        simp only [decodeBody, bind_eq_ok_iff, pure_eq_ok_iff, decodeMembers_eq_ok_iff]
        exact ⟨_, hmembers, rfl⟩
    | ofClass hmembers hbase hinitializer habstract =>
        simp only [decodeBody, bind_eq_ok_iff, pure_eq_ok_iff, decodeMembers_eq_ok_iff,
          decodeBase_eq_ok_iff, Initializer.decode_eq_ok_iff]
        exact ⟨_, hmembers, _, hbase, _, hinitializer, _, habstract, rfl⟩

section Names

variable {assembly fqn name : String} {scope : Option String}

/-- The local part of a full name follows the name of the assembly and a dot. -/
theorem toList_of_localName?
    {localPart : List Char}
    (h : localName? assembly fqn = some localPart) :
    fqn.toList = assembly.toList ++ '.' :: localPart := by
  simp only [localName?] at h
  split at h
  · rename_i hprefix
    obtain ⟨rest, hrest⟩ := List.isPrefixOf_iff_prefix.1 hprefix
    rw [← hrest, List.drop_left] at h
    cases h
    rw [← hrest]
    simp
  · cases h

/-- The short name is the one that the entry gives, or what follows the last dot of the local part; the
namespace of an entry that gives none is what stands before that dot. -/
theorem decodeNames_eq_ok
    (h : decodeNames assembly fqn fields = .ok (name, scope)) :
    ∃ localPart, fqn.toList = assembly.toList ++ '.' :: localPart ∧
      ((fields.get "name" = .null ∧ name = String.ofList (splitLastDot localPart).2) ∨
        (fields.get "name" = .string name ∧ name ≠ "")) ∧
      (fields.get "namespace" = .null → scope = (splitLastDot localPart).1.map String.ofList) := by
  simp only [decodeNames] at h
  split at h
  · rename_i localPart hlocal
    have hscope : ∀ given, fields.optionalString "namespace" = .ok given →
        (given <|> (splitLastDot localPart).1.map String.ofList) = scope →
        fields.get "namespace" = .null → scope = (splitLastDot localPart).1.map String.ofList := by
      intro given hgiven hscope hnull
      rw [Json.Fields.optionalString, hnull] at hgiven
      cases hgiven
      exact hscope.symm
    split at h
    · rename_i hnull
      simp only [bind_eq_ok_iff, pure_eq_ok_iff, Prod.mk.injEq] at h
      obtain ⟨_, rfl, given, hgiven, rfl, he⟩ := h
      exact ⟨localPart, toList_of_localName? hlocal, Or.inl ⟨hnull, rfl⟩, hscope given hgiven he⟩
    · simp [bind_eq_ok_iff] at h
    · rename_i given hne hname
      simp only [bind_eq_ok_iff, pure_eq_ok_iff, Prod.mk.injEq] at h
      obtain ⟨_, rfl, outer, houter, rfl, he⟩ := h
      refine ⟨localPart, toList_of_localName? hlocal, Or.inr ⟨hname, ?_⟩, hscope outer houter he⟩
      rintro rfl
      exact hne rfl
    · simp [bind_eq_ok_iff] at h
  · simp at h

end Names

/-- What is read from the fields of an entry for a type. -/
structure ReadFrom (fields : Json.Fields) (t : TypeDef) : Prop where
  body : ∃ kind, (fields.get "kind").string?.bind TypeKind.ofName? = some kind ∧
    BodyRead fields kind t.body
  names : decodeNames t.assembly t.fqn fields = .ok (t.name, t.scope)
  docs : Docs.Read (fields.get "docs") t.docs

/-- The names of a type are read from two fields. -/
theorem decodeNames_congr
    {fields' : Json.Fields}
    (hname : fields'.get "name" = fields.get "name")
    (hscope : fields'.get "namespace" = fields.get "namespace")
    (assembly fqn : String) :
    decodeNames assembly fqn fields' = decodeNames assembly fqn fields := by
  rw [decodeNames, decodeNames, hname, Json.optionalString_congr hscope]

theorem decode_object_eq_ok_iff
    {assembly fqn : String}
    {t : TypeDef} :
    decode assembly fqn (.object fields) = .ok t ↔
      t.assembly = assembly ∧ t.fqn = fqn ∧ ReadFrom fields t := by
  constructor
  · intro h
    simp only [decode] at h
    split at h
    · rename_i kind hkind
      simp only [bind_eq_ok_iff, pure_eq_ok_iff, Docs.docs_eq_ok_iff, decodeBody_eq_ok_iff] at h
      obtain ⟨⟨name, scope⟩, hnames, docs, hdocs, body, hbody, rfl⟩ := h
      exact ⟨rfl, rfl, ⟨kind, hkind, hbody⟩, hnames, hdocs⟩
    · simp at h
  · rintro ⟨rfl, rfl, ⟨kind, hkind, hbody⟩, hnames, hdocs⟩
    simp only [decode, hkind, bind_eq_ok_iff, pure_eq_ok_iff, Docs.docs_eq_ok_iff,
      decodeBody_eq_ok_iff]
    exact ⟨_, hnames, _, hdocs, _, hbody, rfl⟩

/-- The reader of type entries and its relation. -/
theorem decode_eq_ok_iff
    {assembly fqn : String}
    {value : Json}
    {t : TypeDef} :
    decode assembly fqn value = .ok t ↔
      t.assembly = assembly ∧ t.fqn = fqn ∧ Holds ReadFrom value t := by
  cases value with
  | object fields => rw [decode_object_eq_ok_iff, Json.holds_object]
  | _ => simp [decode, Holds]

end TypeDef

end TypeGraph
