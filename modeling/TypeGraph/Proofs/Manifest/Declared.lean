import Mathlib
import TypeGraph.Proofs.Manifest.TypeEntries

/-!
# Declared references

What an entry declares of other types, told by what is written in it: a full name stands as a text or in
an object that holds it, the type of a parameter or a property in the field `type`, and what a method
returns in its own field or in a wrapper.  A manifest that is read keeps every such reference, with one
exception: an object that holds null for the base of a class is taken for no base.

**Results.**
* `TypeDef.BaseRead.kept`, `Method.Returns.kept`: what is kept of a base and of what is returned.
* `Manifest.declared_references_kept`: the entries of a document and the types that are read from them.
* `Manifest.base_of_null_lost`: the exception.
-/

namespace TypeGraph

open Json (Holds ListsAll HoldsType)

/-- A value refers to a full name: it is that text, or an object that holds it. -/
inductive RefersTo : Json → String → Prop
  | text {fqn : String} :
      fqn ≠ "" →
      RefersTo (.string fqn) fqn
  | held {inner : Json.Fields} {fqn : String} :
      fqn ≠ "" →
      inner.get "fqn" = .string fqn →
      RefersTo (.object inner) fqn

/-- The base of a class is what is written for it; there is none where nothing is written, or an object
that holds null. -/
structure BaseKept (given : Json) (base : Option String) : Prop where
  refers : ∀ fqn, base = some fqn → RefersTo given fqn
  none_iff : base = none ↔
    given = .null ∨ ∃ inner : Json.Fields, given = .object inner ∧ inner.lookup "fqn" = some .null

/-- A record has a name, and its field `type` is read as a type. -/
structure TypeWritten (fields : Json.Fields) (name : String) (type : TypeRef) : Prop where
  name : fields.get "name" = .string name
  type : ∃ given, fields.lookup "type" = some given ∧ TypeRef.decode given = .ok type

/-- A field holds a list of parameters, each with its name and its type. -/
def ParametersKept (given : Json) (ps : List Parameter) : Prop :=
  ListsAll (Holds fun fields (p : Parameter) => TypeWritten fields p.name p.type) given ps

/-- The reference in what is written for what a method returns: a wrapper holds it in its field
`type`. -/
def writtenReturn : Json → Json
  | .object fields => (fields.lookup "type").getD (.object fields)
  | given => given

/-- A method returns the type that is written, and nothing where null or `void` is. -/
structure ReturnsKept (given : Json) (returns : Option TypeRef) : Prop where
  none_iff : returns = none ↔ given = .null ∨ given = .string "void"
  type : ∀ r, returns = some r → TypeRef.decode (writtenReturn given) = .ok r

/-- A method has its name, its parameters and what it returns. -/
structure MethodKept (fields : Json.Fields) (m : Method) : Prop where
  name : fields.get "name" = .string m.name
  parameters : ParametersKept (fields.get "parameters") m.parameters
  returns : ReturnsKept (fields.get "returns") m.returns

/-- A class has an initializer where there is an object for it, with its parameters. -/
inductive InitializerKept : Json → Option Initializer → Prop
  | absent :
      InitializerKept .null none
  | given {fields : Json.Fields} {i : Initializer} :
      ParametersKept (fields.get "parameters") i.parameters →
      InitializerKept (.object fields) (some i)

/-- A type is of the kind that its entry tells and has, place by place and in order, the references that
are written there. -/
structure ReferencesKept (entry : Json.Fields) (t : TypeDef) : Prop where
  kind : entry.get "kind" = .string t.kind.name
  base : t.isClass = true → BaseKept (entry.get "base") t.base
  interfaces : t.isEnum = false → ListsAll RefersTo (entry.get "interfaces") t.interfaces
  methods : t.isEnum = false → ListsAll (Holds MethodKept) (entry.get "methods") t.methods
  properties : t.isEnum = false →
    ListsAll (Holds fun fields (p : Property) => TypeWritten fields p.name p.type)
      (entry.get "properties") t.properties
  initializer : t.isClass = true → InitializerKept (entry.get "initializer") t.initializer

section Parts

variable {given : Json}

/-- An item of a list of full names refers to its full name. -/
theorem refersTo_of_entryFqn?
    {fqn : String}
    (h : TypeDef.entryFqn? given = some fqn) :
    RefersTo given fqn := by
  unfold TypeDef.entryFqn? at h
  split at h
  · obtain ⟨hget, hne⟩ := Json.name?_eq_some_iff.1 h
    exact .held hne hget
  · obtain ⟨rfl, hne⟩ := Json.name?_eq_some_iff.1 h
    exact .text hne

theorem TypeDef.BaseRead.kept
    {base : Option String}
    (h : TypeDef.BaseRead given base) :
    BaseKept given base := by
  cases h with
  | absent => exact ⟨by simp, by simp⟩
  | text hne =>
      refine ⟨fun fqn hfqn => ?_, by simp⟩
      cases hfqn
      exact .text hne
  | heldNull hpresent hnull =>
      have hlookup := Json.Fields.lookup_of_has hpresent
      rw [hnull] at hlookup
      exact ⟨by simp, by simp [hlookup]⟩
  | held hfqn =>
      obtain ⟨hget, hne⟩ := Json.name?_eq_some_iff.1 hfqn
      refine ⟨fun fqn hbase => ?_, ?_⟩
      · cases hbase
        exact .held hne hget
      · simp [Json.Fields.lookup_of_get hget]

theorem Json.HoldsType.typeWritten
    {fields : Json.Fields}
    {name : String}
    {type : TypeRef}
    {isOptional : Bool}
    (h : HoldsType fields type isOptional)
    (hname : (fields.get "name").name? = some name) :
    TypeWritten fields name type :=
  ⟨(Json.name?_eq_some_iff.1 hname).1, _, Json.Fields.lookup_of_has h.present, h.type⟩

theorem Parameter.ListRead.kept
    {ps : List Parameter}
    (h : Parameter.ListRead given ps) :
    ParametersKept given ps :=
  h.items.imp fun _ _ hitem => hitem.imp fun _ hread => hread.type.typeWritten hread.name

theorem Method.Returns.kept
    {returns : Option TypeRef}
    {isOptional : Bool}
    (h : Method.Returns given returns isOptional) :
    ReturnsKept given returns := by
  cases h with
  | absent => exact ⟨by simp, by simp⟩
  | void => exact ⟨by simp, by simp⟩
  | wrapped htype =>
      refine ⟨by simp, fun r hr => ?_⟩
      cases hr
      rw [writtenReturn, Json.Fields.lookup_of_has htype.present]
      exact htype.type
  | bare hvoid hbare htype _ =>
      have hnull : given ≠ .null := by
        rintro rfl
        simp [TypeRef.decode] at htype
      refine ⟨by simp [hnull, hvoid], fun r hr => ?_⟩
      cases hr
      cases given with
      | object fields =>
          rw [writtenReturn, Json.Fields.has_eq_false_iff.1 (hbare fields rfl)]
          exact htype
      | _ => exact htype

theorem Method.ReadFrom.kept
    {fields : Json.Fields}
    {m : Method}
    (h : Method.ReadFrom fields m) :
    MethodKept fields m :=
  ⟨(Json.name?_eq_some_iff.1 h.name).1, h.parameters.kept, h.returns.kept⟩

theorem Initializer.Read.kept
    {i : Option Initializer}
    (h : Initializer.Read given i) :
    InitializerKept given i := by
  cases h with
  | absent => exact .absent
  | given hread => exact .given hread.parameters.kept

end Parts

section Types

variable {fields : Json.Fields} {m : Members} {t : TypeDef}

theorem Members.ReadFrom.interfaces_kept
    (h : Members.ReadFrom fields m) :
    ListsAll RefersTo (fields.get "interfaces") m.interfaces :=
  h.interfaces.imp fun _ _ => refersTo_of_entryFqn?

theorem Members.ReadFrom.methods_kept
    (h : Members.ReadFrom fields m) :
    ListsAll (Holds MethodKept) (fields.get "methods") m.methods :=
  h.methods.imp fun _ _ hitem => hitem.imp fun _ hread => hread.kept

theorem Members.ReadFrom.properties_kept
    (h : Members.ReadFrom fields m) :
    ListsAll (Holds fun fields (p : Property) => TypeWritten fields p.name p.type)
      (fields.get "properties") m.properties :=
  h.properties.imp fun _ _ hitem => hitem.imp fun _ hread => hread.type.typeWritten hread.name

/-- A value that tells a kind is the name of the kind. -/
theorem eq_name_of_ofName?
    {given : Json}
    {kind : TypeKind}
    (h : given.string?.bind TypeKind.ofName? = some kind) :
    given = .string kind.name := by
  cases given with
  | string text =>
      have hfind : TypeKind.all.find? (fun kind => kind.name == text) = some kind := h
      have hname : kind.name = text := by simpa using List.find?_some hfind
      rw [hname]
  | _ => simp [Json.string?] at h

/-- A type that is read from an entry has the references that are written there. -/
theorem TypeDef.ReadFrom.kept
    (h : TypeDef.ReadFrom fields t) :
    ReferencesKept fields t := by
  obtain ⟨kind, hkind, hbody⟩ := h.body
  have hgiven := eq_name_of_ofName? hkind
  obtain ⟨fqn, assembly, name, scope, docs, body⟩ := t
  cases hbody with
  | ofEnum _ _ =>
      refine ⟨hgiven, ?_, ?_, ?_, ?_, ?_⟩ <;> intro hclass <;> cases hclass
  | ofInterface hmembers =>
      refine ⟨hgiven, fun hclass => ?_, fun _ => hmembers.interfaces_kept,
        fun _ => hmembers.methods_kept, fun _ => hmembers.properties_kept, fun hclass => ?_⟩
      · cases hclass
      · cases hclass
  | ofClass hmembers hbase hinitializer _ =>
      exact ⟨hgiven, fun _ => hbase.kept, fun _ => hmembers.interfaces_kept,
        fun _ => hmembers.methods_kept, fun _ => hmembers.properties_kept,
        fun _ => hinitializer.kept⟩

end Types

/-- Every type of a manifest that was read has, under the full name of its entry and in the order of the
entries, the references that are written there.  The base of a class is the text that is written or the
full name that the object holds; a class without one is written without one, or with an object that holds
null as its full name.  The interfaces are the full names that are listed, the type of each parameter and
property is what its field `type` is read as, and so is what a method returns, of which nothing is left
out but null and `void`. -/
theorem Manifest.declared_references_kept
    {source : Source}
    {m : Manifest}
    (h : decode source = .ok m) :
    ∃ (fields : Json.Fields) (found : List (String × Json)),
      source.document = .ok (.object fields) ∧
      TypeEntries (fields.get "types") found ∧
      List.Forall₂ (fun entry t => t.fqn = entry.1 ∧ Holds ReferencesKept entry.2 t)
        found m.types := by
  obtain ⟨fields, found, hdocument, hfound, htypes⟩ := exists_entries h
  refine ⟨fields, found, hdocument, hfound, htypes.imp fun entry t ht => ?_⟩
  obtain ⟨-, hfqn, hread⟩ := TypeDef.decode_eq_ok_iff.1 ht
  exact ⟨hfqn, hread.imp fun _ hfields => hfields.kept⟩

/-- The entry of a class whose base is an object, with an interface and a method that returns a wrapped
type. -/
def derivedEntry : Json.Fields :=
  [("kind", .string "class"), ("base", .object [("fqn", .string "a.B")]),
    ("interfaces", .array [.string "a.I"]),
    ("methods", .array [.object [("name", .string "m"),
      ("returns", .object [("type", .string "a.D[]")])]])]

/-- The references of the class are kept. -/
theorem Manifest.declared_references_kept_of_derivedEntry :
    ∃ m t, decode (.value (.object [("name", .string "a"), ("version", .string "1"),
        ("types", .object [("a.C", .object derivedEntry)])])) = .ok m ∧
      m.types = [t] ∧ ReferencesKept derivedEntry t := by
  have hdecode : decode (.value (.object [("name", .string "a"), ("version", .string "1"),
      ("types", .object [("a.C", .object derivedEntry)])])) = .ok ⟨"a", "1", [],
        [⟨"a.C", "a", "C", none, .empty, .ofClass (some "a.B") ⟨["a.I"],
          [⟨"m", [], some (.array (.named "a.D")), false, false, false, false, false, .empty⟩], []⟩
          false none⟩], none, none, none, none⟩ := by
    cbv
  obtain ⟨fields, found, hdocument, hfound, htypes⟩ := declared_references_kept hdecode
  cases hdocument
  have hkeyed : TypeEntries (.object [("a.C", .object derivedEntry)])
      [("a.C", .object derivedEntry)] :=
    .keyed (List.forall_mem_singleton.2 (standsUnder_object_iff.2 (Or.inl rfl)))
  obtain rfl := hfound.unique hkeyed
  obtain ⟨⟨-, hread⟩, -⟩ := List.forall₂_cons.1 htypes
  exact ⟨_, _, hdecode, rfl, Json.holds_object.1 hread⟩

/-- An object that holds null as the full name of a base is accepted and taken for no base. -/
theorem Manifest.base_of_null_lost :
    ∃ m t, decode (.value (.object [("name", .string "a"), ("version", .string "1"),
        ("types", .object [("a.C", .object [("kind", .string "class"),
          ("base", .object [("fqn", .null)])])])])) = .ok m ∧
      m.types = [t] ∧ t.isClass = true ∧ t.base = none :=
  ⟨⟨"a", "1", [], [⟨"a.C", "a", "C", none, .empty, .ofClass none ⟨[], [], []⟩ false none⟩],
    none, none, none, none⟩, _, rfl, rfl, rfl, rfl⟩

end TypeGraph
