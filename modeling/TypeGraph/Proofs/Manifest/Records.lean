import TypeGraph.Proofs.Manifest.Place

/-!
# Records that are read alike

Two records at a place are alike when the values in its slots are, whatever else they hold and in
whichever order: no reader looks further.  There is one lemma for each sort of records.

**Results.**
* `Place.alike_of_agreeOn`: records that agree on the slots of their place are alike.
-/

namespace TypeGraph

open Json (HoldsType)

section Records

variable {fields fields' : Json.Fields}

/-- A type is read alike from records that agree on where it is held. -/
theorem Json.HoldsType.congr
    {type : TypeRef}
    {isOptional : Bool}
    (h : HoldsType fields type isOptional)
    (htype : Place.reference.Alike (fields.get "type") (fields'.get "type"))
    (hhas : fields'.has "type" = fields.has "type")
    (hoptional : fields'.get "optional" = fields.get "optional") :
    HoldsType fields' type isOptional := by
  obtain ⟨flagged, hflagged, rfl⟩ := h.optional
  obtain ⟨hread, hmarks⟩ := htype (type, _) ⟨h.type, rfl⟩
  exact ⟨hhas.trans h.present, hread, flagged, (Json.flag_congr hoptional).trans hflagged,
    congrArg (flagged || ·) hmarks.symm⟩

theorem Json.marksOptional_congr
    (h : fields'.get "optional" = fields.get "optional") :
    (Json.object fields').marksOptional = (Json.object fields).marksOptional := by
  simp only [Json.marksOptional, h]

/-- Parameters are read alike from lists of parameters that are alike. -/
theorem Parameter.ListRead.congr
    {v w : Json}
    {ps : List Parameter}
    (h : Parameter.ListRead v ps)
    (hvw : (Place.list .parameter).Alike v w) :
    Parameter.ListRead w ps where
  items := hvw.listsAll (fun _ _ hitem => hitem) h.items
  distinct := h.distinct
  ordered := h.ordered

/-- A structured reference is read alike from records that agree on its form and its parts. -/
theorem TypeRef.ReadFrom.congr
    {r : TypeRef}
    (hread : TypeRef.ReadFrom fields r)
    (h : Place.AgreeOn Place.elementSlots fields fields') :
    TypeRef.ReadFrom fields' r := by
  simp only [Place.elementSlots, Place.agreeOn_cons_iff, Place.agrees_telling_iff,
    Place.alike_scalar_iff] at h
  obtain ⟨⟨hprimitive, hasPrimitive⟩, ⟨hfqn, hasFqn⟩, ⟨hcollection, hasCollection⟩, ⟨hunion, -⟩,
    -⟩ := h
  cases hread with
  | primitive hname => exact .primitive (hprimitive ▸ hname)
  | named hp hf => exact .named (hasPrimitive.trans hp) (hfqn ▸ hf)
  | collection hp hf hinner =>
      exact .collection (hasPrimitive.trans hp) (hasFqn.trans hf) (hcollection _ hinner)
  | union hp hf hc hchoice =>
      exact .union (hasPrimitive.trans hp) (hasFqn.trans hf) (hasCollection.trans hc)
        (hunion _ hchoice)

namespace Place

theorem alike_docs
    (h : AgreeOn docsSlots fields fields') :
    Alike .docs (.object fields) (.object fields') := by
  simp only [docsSlots, agreeOn_cons_iff, agrees_plain_iff, alike_scalar_iff] at h
  obtain ⟨hsummary, hremarks, hdeprecated, hstability, -⟩ := h
  intro docs hread
  cases hread with
  | given hs hr hd ht =>
      exact .given ((Json.optionalString_congr hsummary).trans hs)
        ((Json.optionalString_congr hremarks).trans hr)
        ((Json.optionalString_congr hdeprecated).trans hd)
        ((Json.optionalString_congr hstability).trans ht)

theorem alike_version
    (h : AgreeOn versionSlots fields fields') :
    Alike .version (.object fields) (.object fields') := by
  simp only [versionSlots, agreeOn_cons_iff, agrees_plain_iff, alike_scalar_iff] at h
  intro version hread
  cases hread with
  | held hv => exact .held ((Json.optionalString_congr h.1).trans hv)

theorem alike_enumMember
    (h : AgreeOn enumMemberSlots fields fields') :
    Alike .enumMember (.object fields) (.object fields') := by
  simp only [enumMemberSlots, agreeOn_cons_iff, agrees_plain_iff, alike_scalar_iff] at h
  obtain ⟨hname, hdocs, -⟩ := h
  intro m hread
  cases hread with
  | given hn hd => exact .given (hname ▸ hn) (hdocs _ hd)

theorem alike_parameter
    (h : AgreeOn parameterSlots fields fields') :
    Alike .parameter (.object fields) (.object fields') := by
  simp only [parameterSlots, agreeOn_cons_iff, agrees_plain_iff, agrees_telling_iff,
    alike_scalar_iff] at h
  obtain ⟨hname, ⟨htype, hhas⟩, hoptional, hvariadic, -⟩ := h
  intro p hread
  rw [Json.holds_object] at hread ⊢
  exact {
    name := hname ▸ hread.name
    type := hread.type.congr htype hhas hoptional
    isVariadic := (Json.flag_congr hvariadic).trans hread.isVariadic }

theorem alike_property
    (h : AgreeOn propertySlots fields fields') :
    Alike .property (.object fields) (.object fields') := by
  simp only [propertySlots, agreeOn_cons_iff, agrees_plain_iff, agrees_telling_iff,
    alike_scalar_iff] at h
  obtain ⟨hname, ⟨htype, hhas⟩, hoptional, himmutable, hstatic, habstract, hprotected, hdocs, -⟩ := h
  intro p hread
  rw [Json.holds_object] at hread ⊢
  exact {
    name := hname ▸ hread.name
    type := hread.type.congr htype hhas hoptional
    isImmutable := (Json.flag_congr himmutable).trans hread.isImmutable
    isStatic := (Json.flag_congr hstatic).trans hread.isStatic
    isAbstract := (Json.flag_congr habstract).trans hread.isAbstract
    isProtected := (Json.flag_congr hprotected).trans hread.isProtected
    docs := hdocs _ hread.docs }

theorem alike_initializer
    (h : AgreeOn initializerSlots fields fields') :
    Alike .initializer (.object fields) (.object fields') := by
  simp only [initializerSlots, agreeOn_cons_iff, agrees_plain_iff, alike_scalar_iff] at h
  obtain ⟨hparameters, hprotected, hdocs, -⟩ := h
  intro i hread
  cases hread with
  | given hi =>
      exact .given {
        parameters := hi.parameters.congr hparameters
        isProtected := (Json.flag_congr hprotected).trans hi.isProtected
        docs := hdocs _ hi.docs }

theorem alike_method
    (h : AgreeOn methodSlots fields fields') :
    Alike .method (.object fields) (.object fields') := by
  simp only [methodSlots, agreeOn_cons_iff, agrees_plain_iff, alike_scalar_iff] at h
  obtain ⟨hname, hreturns, hparameters, hstatic, habstract, hasync, hprotected, hdocs, -⟩ := h
  intro m hread
  rw [Json.holds_object] at hread ⊢
  exact {
    name := hname ▸ hread.name
    returns := hreturns (m.returns, m.returnsOptional) hread.returns
    parameters := hread.parameters.congr hparameters
    isStatic := (Json.flag_congr hstatic).trans hread.isStatic
    isAbstract := (Json.flag_congr habstract).trans hread.isAbstract
    isAsync := (Json.flag_congr hasync).trans hread.isAsync
    isProtected := (Json.flag_congr hprotected).trans hread.isProtected
    docs := hdocs _ hread.docs }

theorem alike_interface
    (h : AgreeOn [.plain "fqn" .scalar] fields fields') :
    Alike .interface (.object fields) (.object fields') := by
  simp only [agreeOn_cons_iff, agrees_plain_iff, alike_scalar_iff] at h
  intro fqn hread
  simp only [TypeDef.entryFqn?] at hread ⊢
  rw [h.1]
  exact hread

theorem alike_base
    (h : AgreeOn [.telling "fqn" .scalar] fields fields') :
    Alike .base (.object fields) (.object fields') := by
  simp only [agreeOn_cons_iff, agrees_telling_iff, alike_scalar_iff] at h
  obtain ⟨⟨hfqn, hhas⟩, -⟩ := h
  intro base hread
  cases hread with
  | heldNull hpresent hnull => exact .heldNull (hhas.trans hpresent) (hfqn.trans hnull)
  | held hf => exact .held (hfqn ▸ hf)

theorem alike_collection
    (h : AgreeOn collectionSlots fields fields') :
    Alike .collection (.object fields) (.object fields') := by
  simp only [collectionSlots, agreeOn_cons_iff, agrees_plain_iff, agrees_telling_iff,
    alike_scalar_iff] at h
  obtain ⟨hkind, ⟨helement, hhas⟩, -⟩ := h
  intro r hread
  rw [Json.holds_object] at hread ⊢
  cases hread with
  | intro hk hpresent hr => exact .intro (hkind ▸ hk) (hhas.trans hpresent) (helement _ hr)

theorem alike_choice
    (h : AgreeOn choiceSlots fields fields') :
    Alike .choice (.object fields) (.object fields') := by
  simp only [choiceSlots, agreeOn_cons_iff, agrees_plain_iff] at h
  intro members hread
  rw [Json.holds_object] at hread ⊢
  exact ⟨h.1.listsAll (fun _ _ hitem => hitem) hread.1, hread.2⟩

theorem alike_element
    (h : AgreeOn elementSlots fields fields') :
    Alike .element (.object fields) (.object fields') := by
  intro r hread
  rw [TypeRef.decode, TypeRef.decodeObject_eq_ok_iff] at hread ⊢
  exact hread.congr h

theorem alike_reference
    (h : AgreeOn referenceSlots fields fields') :
    Alike .reference (.object fields) (.object fields') := by
  simp only [referenceSlots, agreeOn_cons_iff, agrees_plain_iff, alike_scalar_iff] at h
  rintro ⟨r, marked⟩ ⟨hread, hmarked⟩
  exact ⟨alike_element h.2 r hread, (Json.marksOptional_congr h.1).trans hmarked⟩

/-- What a method returns is read alike from wrappers that agree and from references that agree. -/
theorem alike_returns
    (h : AgreeOn (returnsSlots fields) fields fields') :
    Alike .returns (.object fields) (.object fields') := by
  rintro ⟨returns, isOptional⟩ hread
  cases hread with
  | wrapped htype =>
      simp only [returnsSlots, htype.present, if_true, agreeOn_cons_iff, agrees_plain_iff,
        agrees_telling_iff, alike_scalar_iff] at h
      obtain ⟨⟨hreference, hhas⟩, hoptional, -⟩ := h
      exact .wrapped (htype.congr hreference (hhas.trans htype.present.symm) hoptional)
  | bare hvoid hbare htype hoptional =>
      have hnone := hbare fields rfl
      simp only [returnsSlots, hnone, Bool.false_eq_true, if_false, agreeOn_cons_iff,
        agrees_telling_iff] at h
      obtain ⟨⟨-, hhas⟩, hreference⟩ := h
      obtain ⟨htype, hmarks⟩ := alike_reference hreference (_, _) ⟨htype, rfl⟩
      refine .bare (by simp) (fun _ hfields => ?_) htype (hoptional.trans hmarks.symm)
      cases hfields
      exact hhas

end Place

/-- Members are read alike from records that agree on where they are held. -/
theorem Members.ReadFrom.congr
    {m : Members}
    (hread : Members.ReadFrom fields m)
    (hmethods : (Place.list .method).Alike (fields.get "methods") (fields'.get "methods"))
    (hproperties :
      (Place.list .property).Alike (fields.get "properties") (fields'.get "properties"))
    (hinterfaces :
      (Place.list .interface).Alike (fields.get "interfaces") (fields'.get "interfaces")) :
    Members.ReadFrom fields' m where
  methods := hmethods.listsAll (fun _ _ hitem => hitem) hread.methods
  properties := hproperties.listsAll (fun _ _ hitem => hitem) hread.properties
  interfaces := hinterfaces.listsAll (fun _ _ hitem => hitem) hread.interfaces
  methodsDistinct := hread.methodsDistinct
  propertiesDistinct := hread.propertiesDistinct
  interfacesDistinct := hread.interfacesDistinct

/-- A type is read alike from entries that agree on all but the full name that they hold. -/
theorem TypeDef.ReadFrom.congr
    {t : TypeDef}
    (hread : TypeDef.ReadFrom fields t)
    (h : Place.AgreeOn Place.entrySlots fields fields') :
    TypeDef.ReadFrom fields' t := by
  simp only [Place.entrySlots, Place.agreeOn_cons_iff, Place.agrees_plain_iff,
    Place.alike_scalar_iff] at h
  obtain ⟨hkind, hname, hscope, hdocs, hmembers, hmethods, hproperties, hinterfaces, hbase,
    hinitializer, habstract, -⟩ := h
  obtain ⟨kind, hk, hbody⟩ := hread.body
  obtain ⟨fqn, assembly, name, scope, docs, body⟩ := t
  refine ⟨⟨kind, hkind ▸ hk, ?_⟩, (decodeNames_congr hname hscope _ _).trans hread.names,
    hdocs _ hread.docs⟩
  cases hbody with
  | ofEnum henum hdistinct =>
      exact .ofEnum (hmembers.listsAll (fun _ _ hitem => hitem) henum) hdistinct
  | ofInterface hm => exact .ofInterface (hm.congr hmethods hproperties hinterfaces)
  | ofClass hm hb hi ha =>
      exact .ofClass (hm.congr hmethods hproperties hinterfaces) (hbase _ hb) (hinitializer _ hi)
        ((Json.flag_congr habstract).trans ha)

namespace Place

theorem alike_entry
    (h : AgreeOn (.plain "fqn" .scalar :: entrySlots) fields fields') :
    Alike .entry (.object fields) (.object fields') := by
  simp only [agreeOn_cons_iff, agrees_plain_iff, alike_scalar_iff] at h
  rintro ⟨given, t⟩ hread
  rw [Json.holds_object] at hread ⊢
  exact ⟨h.1.trans hread.1, hread.2.congr h.2⟩

theorem alike_manifest
    (h : AgreeOn manifestSlots fields fields') :
    Alike .manifest (.object fields) (.object fields') := by
  simp only [manifestSlots, agreeOn_cons_iff, agrees_plain_iff, alike_scalar_iff] at h
  obtain ⟨hname, hversion, hdependencies, htypes, hdescription, hhomepage, hlicense, hschema, -⟩ := h
  intro m hread
  rw [Json.holds_object] at hread ⊢
  exact {
    name := hname ▸ hread.name
    version := hversion ▸ hread.version
    dependencies := hdependencies _ hread.dependencies
    types := htypes _ _ hread.types
    description := (Json.optionalString_congr hdescription).trans hread.description
    homepage := (Json.optionalString_congr hhomepage).trans hread.homepage
    license := (Json.optionalString_congr hlicense).trans hread.license
    schema := (Json.optionalString_congr hschema).trans hread.schema }

/-- Records that agree on the slots of their place are alike. -/
theorem alike_of_agreeOn
    {p : Place}
    (hp : p.isRecord = true)
    (h : AgreeOn (p.slots fields) fields fields') :
    p.Alike (.object fields) (.object fields') := by
  cases p with
  | manifest => exact alike_manifest h
  | version => exact alike_version h
  | entry => exact alike_entry h
  | docs => exact alike_docs h
  | enumMember => exact alike_enumMember h
  | method => exact alike_method h
  | returns => exact alike_returns h
  | parameter => exact alike_parameter h
  | property => exact alike_property h
  | interface => exact alike_interface h
  | base => exact alike_base h
  | initializer => exact alike_initializer h
  | reference => exact alike_reference h
  | element => exact alike_element h
  | collection => exact alike_collection h
  | choice => exact alike_choice h
  | scalar | dependencies | types | list _ => cases hp

end Place

end Records

end TypeGraph
