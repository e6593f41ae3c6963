import TypeGraph.Proofs.Json.Regular
import TypeGraph.Proofs.Manifest.Decoded
import TypeGraph.Proofs.Manifest.Documents
import TypeGraph.Proofs.TypeRef.Structured

/-!
# Well-formed manifests

What a manifest is once it has been read: the names in it are not empty and differ where they share an
owner, its types belong to the assembly, its references are made of what references are made of, and
its lists of parameters are in order.  It does not matter in which of the accepted spellings the
document came.

**Results.**
* `Manifest.decoded_wellFormed`: every manifest that was read is well formed.
-/

namespace TypeGraph

open Json (HoldsType)

/-- Names that are not empty and differ from each other. -/
structure ProperNames (names : List String) : Prop where
  nonempty : ∀ name ∈ names, name ≠ ""
  distinct : names.Nodup

/-- Parameters with proper names and well-formed types, in order; the last one takes any number of
arguments when there is one that may. -/
structure Parameter.WellFormed (ps : List Parameter) : Prop where
  names : ProperNames (ps.map name)
  types : ∀ p ∈ ps, p.type.WellFormed
  ordered : ∃ required optional last, Layout required optional last ps ∧
    anyVariadic ps = last.isSome

/-- A method with well-formed parameters and a well-formed type that it returns, if any. -/
structure Method.WellFormed (m : Method) : Prop where
  parameters : Parameter.WellFormed m.parameters
  returns : ∀ r ∈ m.returns, r.WellFormed

/-- Members with proper names, each of them well formed. -/
structure Members.WellFormed (m : Members) : Prop where
  interfaces : ProperNames m.interfaces
  methodNames : ProperNames (m.methods.map Method.name)
  propertyNames : ProperNames (m.properties.map Property.name)
  methods : ∀ method ∈ m.methods, method.WellFormed
  properties : ∀ property ∈ m.properties, property.type.WellFormed

/-- A type whose parts are well formed, whatever its kind. -/
structure TypeDef.WellFormed (t : TypeDef) : Prop where
  enumMembers : ProperNames (t.enumMembers.map EnumMember.name)
  members : t.members.WellFormed
  base : ∀ fqn ∈ t.base, fqn ≠ ""
  initializer : ∀ i ∈ t.initializer, Parameter.WellFormed i.parameters

/-- A manifest with proper names throughout, whose types are those of its assembly. -/
structure Manifest.WellFormed (m : Manifest) : Prop where
  name : m.name ≠ ""
  version : m.version ≠ ""
  dependencies : ProperNames m.dependencyNames
  owned : ∀ t ∈ m.types, t.assembly = m.name
  inScope : ∀ t ∈ m.types, ∃ rest, t.fqn = m.name ++ "." ++ rest
  types : ∀ t ∈ m.types, t.WellFormed

section Members

theorem properNames_nil :
    ProperNames [] :=
  ⟨by simp, List.nodup_nil⟩

/-- Names are proper when they differ and each is read from something that names it. -/
theorem properNames_map
    {α : Type}
    {name : α → String}
    {xs : List α}
    (hne : ∀ x ∈ xs, name x ≠ "")
    (hdistinct : (xs.map name).Nodup) :
    ProperNames (xs.map name) :=
  ⟨List.forall_mem_map.2 hne, hdistinct⟩

theorem Json.HoldsType.wellFormed
    {fields : Json.Fields}
    {type : TypeRef}
    {isOptional : Bool}
    (h : HoldsType fields type isOptional) :
    type.WellFormed :=
  TypeRef.wellFormed_of_decode h.type

theorem Parameter.ListRead.wellFormed
    {value : Json}
    {ps : List Parameter}
    (h : Parameter.ListRead value ps) :
    Parameter.WellFormed ps := by
  have hread : ∀ p ∈ ps, ∃ fields, Parameter.ReadFrom fields p := by
    intro p hp
    obtain ⟨item, fields, -, hp⟩ := h.items.exists_read hp
    exact ⟨fields, hp⟩
  obtain ⟨required, optional, last, hlayout⟩ := h.ordered
  refine ⟨properNames_map (fun p hp => ?_) h.distinct, fun p hp => ?_,
    required, optional, last, hlayout, hlayout.anyVariadic⟩
  · obtain ⟨fields, hp⟩ := hread p hp
    exact (Json.name?_eq_some_iff.1 hp.name).2
  · obtain ⟨fields, hp⟩ := hread p hp
    exact hp.type.wellFormed

theorem Method.Returns.wellFormed
    {value : Json}
    {r : TypeRef}
    {isOptional : Bool}
    (h : Method.Returns value (some r) isOptional) :
    r.WellFormed := by
  cases h with
  | wrapped htype => exact htype.wellFormed
  | bare hvoid hbare htype hoptional => exact TypeRef.wellFormed_of_decode htype

theorem Method.ReadFrom.wellFormed
    {fields : Json.Fields}
    {m : Method}
    (h : Method.ReadFrom fields m) :
    m.WellFormed :=
  ⟨h.parameters.wellFormed, fun _ hr => (Option.mem_def.1 hr ▸ h.returns).wellFormed⟩

theorem TypeDef.ne_empty_of_entryFqn?
    {item : Json}
    {fqn : String}
    (h : TypeDef.entryFqn? item = some fqn) :
    fqn ≠ "" := by
  unfold TypeDef.entryFqn? at h
  split at h
  · exact (Json.name?_eq_some_iff.1 h).2
  · exact (Json.name?_eq_some_iff.1 h).2

theorem Members.ReadFrom.wellFormed
    {fields : Json.Fields}
    {m : Members}
    (h : Members.ReadFrom fields m) :
    m.WellFormed where
  interfaces := by
    refine ⟨fun fqn hfqn => ?_, h.interfacesDistinct⟩
    obtain ⟨item, hitem⟩ := h.interfaces.exists_read hfqn
    exact TypeDef.ne_empty_of_entryFqn? hitem
  methodNames := by
    refine properNames_map (fun method hmethod => ?_) h.methodsDistinct
    obtain ⟨item, inner, -, hread⟩ := h.methods.exists_read hmethod
    exact (Json.name?_eq_some_iff.1 hread.name).2
  propertyNames := by
    refine properNames_map (fun property hproperty => ?_) h.propertiesDistinct
    obtain ⟨item, inner, -, hread⟩ := h.properties.exists_read hproperty
    exact (Json.name?_eq_some_iff.1 hread.name).2
  methods := by
    intro method hmethod
    obtain ⟨item, inner, -, hread⟩ := h.methods.exists_read hmethod
    exact hread.wellFormed
  properties := by
    intro property hproperty
    obtain ⟨item, inner, -, hread⟩ := h.properties.exists_read hproperty
    exact hread.type.wellFormed

theorem Members.wellFormed_empty :
    Members.WellFormed ⟨[], [], []⟩ where
  interfaces := properNames_nil
  methodNames := properNames_nil
  propertyNames := properNames_nil
  methods := by simp
  properties := by simp

theorem EnumMember.Read.name_ne_empty
    {item : Json}
    {m : EnumMember}
    (h : EnumMember.Read item m) :
    m.name ≠ "" := by
  cases h with
  | text hne => exact hne
  | given hname hdocs => exact (Json.name?_eq_some_iff.1 hname).2

theorem TypeDef.BaseRead.ne_empty
    {value : Json}
    {fqn : String}
    (h : TypeDef.BaseRead value (some fqn)) :
    fqn ≠ "" := by
  cases h with
  | text hne => exact hne
  | held hfqn => exact (Json.name?_eq_some_iff.1 hfqn).2

theorem Initializer.Read.wellFormed
    {value : Json}
    {i : Initializer}
    (h : Initializer.Read value (some i)) :
    Parameter.WellFormed i.parameters := by
  cases h with
  | given hread => exact hread.parameters.wellFormed

end Members

section Types

/-- A type that was read from an entry is well formed, whatever its kind. -/
theorem TypeDef.ReadFrom.wellFormed
    {fields : Json.Fields}
    {t : TypeDef}
    (h : TypeDef.ReadFrom fields t) :
    t.WellFormed := by
  obtain ⟨kind, -, hbody⟩ := h.body
  obtain ⟨fqn, assembly, name, scope, docs, body⟩ := t
  cases hbody with
  | ofEnum hmembers hdistinct =>
      refine ⟨properNames_map (fun m hm => ?_) hdistinct, Members.wellFormed_empty, by simp [base],
        by simp [initializer]⟩
      obtain ⟨item, hitem⟩ := hmembers.exists_read hm
      exact hitem.name_ne_empty
  | ofInterface hmembers =>
      exact ⟨properNames_nil, hmembers.wellFormed, by simp [base], by simp [initializer]⟩
  | ofClass hmembers hbase hinitializer habstract =>
      refine ⟨properNames_nil, hmembers.wellFormed, fun fqn hfqn => ?_, fun i hi => ?_⟩
      · obtain rfl := Option.mem_def.1 hfqn
        exact hbase.ne_empty
      · obtain rfl := Option.mem_def.1 hi
        exact hinitializer.wellFormed

theorem Dependency.names_of_fieldRead
    {fields : Json.Fields}
    {ds : List Dependency}
    (h : List.Forall₂ Dependency.FieldRead fields ds) :
    ds.map Dependency.name = fields.map Prod.fst := by
  induction h with
  | nil => rfl
  | cons hd _ ih => rw [List.map_cons, List.map_cons, ih, hd.name]

/-- The names of dependencies differ, in an object because its fields do. -/
theorem Dependency.ListRead.properNames
    {value : Json}
    {ds : List Dependency}
    (hregular : value.Regular)
    (h : Dependency.ListRead value ds) :
    ProperNames (ds.map Dependency.name) := by
  cases h with
  | absent => exact properNames_nil
  | @object fields ds hfields =>
      cases hregular with
      | object hnames hvalues =>
          refine properNames_map (fun d hd => ?_) ?_
          · obtain ⟨field, -, hread⟩ := exists_of_mem_forall₂ hfields hd
            exact hread.name ▸ hread.nonempty
          · rw [names_of_fieldRead hfields]
            exact hnames
  | @list items names hitems hdistinct =>
      have hnames : (names.map fun name => (⟨name, none⟩ : Dependency)).map Dependency.name =
          names := by
        rw [List.map_map]
        exact List.map_id names
      rw [hnames]
      refine ⟨fun name hname => ?_, hdistinct⟩
      obtain ⟨item, -, hitem⟩ := exists_of_mem_forall₂ hitems hname
      exact (Json.name?_eq_some_iff.1 hitem).2

end Types

section Documents

variable {m : Manifest}

theorem Json.Regular.get
    {fields : Json.Fields}
    (h : (Json.object fields).Regular)
    (name : String) :
    (fields.get name).Regular := by
  cases h with
  | object hnames hvalues =>
      cases hl : fields.lookup name with
      | none =>
          rw [Json.Fields.get, hl]
          exact .null
      | some value =>
          rw [Json.Fields.get_of_lookup hl]
          exact hvalues _ ((Json.Fields.lookup_eq_some_iff_mem hnames).1 hl)

/-- What is read from a regular document is well formed. -/
theorem Manifest.ReadFrom.wellFormed
    {fields : Json.Fields}
    (hregular : (Json.object fields).Regular)
    (h : Manifest.ReadFrom fields m) :
    m.WellFormed where
  name := (Json.name?_eq_some_iff.1 h.name).2
  version := (Json.name?_eq_some_iff.1 h.version).2
  dependencies := h.dependencies.properNames (hregular.get "dependencies")
  owned := h.fromEntries.owns
  inScope := h.fromEntries.scoped
  types := by
    intro t ht
    obtain ⟨-, inner, hread⟩ := h.types.readFrom t ht
    exact hread.wellFormed

/-- The types of a manifest that was read are well formed. -/
theorem Manifest.wellFormed_types_of_decode
    {source : Source}
    (h : decode source = .ok m) :
    ∀ t ∈ m.types, t.WellFormed := by
  obtain ⟨_, -, fields, -, hread⟩ := decode_eq_ok_iff.1 h
  intro t ht
  obtain ⟨-, inner, htype⟩ := hread.types.readFrom t ht
  exact htype.wellFormed

/-- No two fields of an object of a source share a name; this is so of every text. -/
def Source.Regular : Source → Prop
  | .value given => given.Regular
  | _ => True

theorem Source.regular_document
    {source : Source}
    {value : Json}
    (hregular : source.Regular)
    (h : source.document = .ok value) :
    value.Regular := by
  have htext : ∀ text, Source.ofText text = .ok value → value.Regular := by
    intro text hread
    exact Json.regular_of_read (mapError_eq_ok_iff.1 hread)
  unfold Source.document at h
  split at h
  · exact htext _ h
  · cases h
    exact hregular
  · exact htext _ h
  · split at h
    · cases h
    · exact htext _ h

/-- Every manifest that was read is well formed, whether it came as a value, as a text or as bytes and
in whichever of the accepted spellings.  Objects whose fields differ in name are asked for only of a
source that is a value, as every object of a text has such fields. -/
theorem Manifest.decoded_wellFormed
    {source : Source}
    (hregular : source.Regular)
    (h : decode source = .ok m) :
    m.WellFormed := by
  obtain ⟨value, hvalue, fields, rfl, hread⟩ := decode_eq_ok_iff.1 h
  exact hread.wellFormed (source.regular_document hregular hvalue)

set_option maxRecDepth 2000 in
/-- A manifest in a text, with a list of dependencies and an enum with a member. -/
theorem Manifest.decoded_wellFormed_of_text :
    ∃ m, decode (.text ("\x7b\"name\":\"a\",\"version\":\"1\",\"dependencies\":[\"b\"]," ++
        "\"types\":\x7b\"a.E\":\x7b\"kind\":\"enum\",\"members\":[\"X\"]\x7d\x7d\x7d")) = .ok m ∧
      m.WellFormed := by
  have hdecode : decode (.text ("\x7b\"name\":\"a\",\"version\":\"1\",\"dependencies\":[\"b\"]," ++
      "\"types\":\x7b\"a.E\":\x7b\"kind\":\"enum\",\"members\":[\"X\"]\x7d\x7d\x7d")) =
      .ok ⟨"a", "1", [⟨"b", none⟩], [⟨"a.E", "a", "E", none, .empty, .ofEnum [⟨"X", .empty⟩]⟩],
        none, none, none, none⟩ := by rfl
  exact ⟨_, hdecode, decoded_wellFormed (show Source.Regular (.text _) from trivial) hdecode⟩

end Documents

end TypeGraph
