import TypeGraph.Manifest.Document
import TypeGraph.Proofs.Manifest.Entries

/-!
# What manifests are read from

The relations of the readers of dependencies, of types in either form and of whole manifests.  A
manifest comes as a value, as a text or as bytes, and it is read from the one value that these spell.

**Results.**
* `Dependency.decodeList_eq_ok_iff`, `Manifest.types_eq_ok_iff`, `Manifest.ofJson_eq_ok_iff`: each
  reader and its relation.
* `Manifest.decode_eq`, `Manifest.decode_eq_ok_iff`: a manifest is read from the value that its source
  spells.
-/

namespace TypeGraph

open Json (Holds)

namespace Dependency

/-- What is read from the value of a dependency for its version. -/
inductive VersionRead : Json → Option String → Prop
  | absent :
      VersionRead .null none
  | text
      (version : String) :
      VersionRead (.string version) (some version)
  | held
      {fields : Json.Fields}
      {version : Option String}
      (h : fields.optionalString "version" = .ok version) :
      VersionRead (.object fields) version

theorem decodeVersion_eq_ok_iff
    {name : String}
    {given : Json}
    {version : Option String} :
    decodeVersion name given = .ok version ↔ VersionRead given version := by
  constructor
  · intro h
    cases given with
    | null =>
        cases h
        exact .absent
    | string text =>
        cases h
        exact .text text
    | object fields =>
        refine .held ?_
        cases hv : Json.Fields.get fields "version" <;> simp only [decodeVersion, hv] at h <;>
          cases h <;> simp only [Json.Fields.optionalString, hv]
    | _ => cases h
  · intro h
    cases h with
    | absent => rfl
    | text version => rfl
    | @held fields version h =>
        cases hv : fields.get "version" <;> simp only [Json.Fields.optionalString, hv] at h <;>
          cases h <;> simp only [decodeVersion, hv]

/-- What is read from a field of the object of dependencies. -/
structure FieldRead (field : String × Json) (d : Dependency) : Prop where
  name : d.name = field.1
  nonempty : field.1 ≠ ""
  version : VersionRead field.2 d.version

theorem decodeField_eq_ok_iff
    {field : String × Json}
    {d : Dependency} :
    decodeField field.1 field.2 = .ok d ↔ FieldRead field d := by
  unfold decodeField
  constructor
  · intro h
    split at h
    · cases h
    · rename_i hne
      simp only [bind_eq_ok_iff, pure_eq_ok_iff, decodeVersion_eq_ok_iff] at h
      obtain ⟨version, hversion, rfl⟩ := h
      exact ⟨rfl, by simpa using hne, hversion⟩
  · rintro ⟨hname, hne, hversion⟩
    have hempty : ¬field.1.isEmpty = true := by simpa using hne
    rw [if_neg hempty]
    simp only [bind_eq_ok_iff, pure_eq_ok_iff, decodeVersion_eq_ok_iff]
    exact ⟨_, hversion, by rw [← hname]⟩

/-- What is read from a field for dependencies. -/
inductive ListRead : Json → List Dependency → Prop
  | absent :
      ListRead .null []
  | object
      {fields : Json.Fields}
      {ds : List Dependency}
      (hfields : List.Forall₂ FieldRead fields ds) :
      ListRead (.object fields) ds
  | list
      {items : List Json}
      {names : List String}
      (hitems : List.Forall₂ (fun item name => item.name? = some name) items names)
      (hdistinct : names.Nodup) :
      ListRead (.array items) (names.map fun name => ⟨name, none⟩)

/-- The reader of dependencies and its relation. -/
theorem decodeList_eq_ok_iff
    {value : Json}
    {ds : List Dependency} :
    decodeList value = .ok ds ↔ ListRead value ds := by
  constructor
  · intro h
    unfold decodeList at h
    split at h
    · cases h
      exact .absent
    · simp only [mapM_eq_ok_iff, decodeField_eq_ok_iff] at h
      exact .object h
    · split at h
      · cases h
      · rename_i names hnames
        split at h <;> cases h
        rename_i hrepeats
        exact .list (mapM_eq_some_iff.1 hnames)
          ((firstRepeat?_eq_none_iff names).1 (by simpa using hrepeats))
    · cases h
  · intro h
    cases h with
    | absent => rfl
    | object hfields =>
        simp only [decodeList, mapM_eq_ok_iff, decodeField_eq_ok_iff]
        exact hfields
    | list hitems hdistinct =>
        simp [decodeList, mapM_eq_some_iff.2 hitems, (firstRepeat?_eq_none_iff _).2 hdistinct]

end Dependency

namespace TypeDef

/-- What is read for an assembly from an entry under a key: the entry may repeat the key as the full
name that it holds. -/
structure ReadUnder (assembly key : String) (fields : Json.Fields) (t : TypeDef) : Prop where
  held : fields.get "fqn" = .null ∨ fields.get "fqn" = .string key
  fqn : t.fqn = key
  assembly : t.assembly = assembly
  entry : ReadFrom fields t

/-- What is read for an assembly from an entry of a list: the entry holds its full name. -/
structure ReadListed (assembly : String) (fields : Json.Fields) (t : TypeDef) : Prop where
  held : (fields.get "fqn").name? = some t.fqn
  assembly : t.assembly = assembly
  entry : ReadFrom fields t

end TypeDef

namespace Manifest

/-- What is read for an assembly from a field for types. -/
inductive TypesRead (assembly : String) : Json → List TypeDef → Prop
  | absent :
      TypesRead assembly .null []
  | object
      {fields : Json.Fields}
      {ts : List TypeDef}
      (hfields : List.Forall₂ (fun field t =>
        Holds (TypeDef.ReadUnder assembly field.1) field.2 t) fields ts) :
      TypesRead assembly (.object fields) ts
  | list
      {items : List Json}
      {ts : List TypeDef}
      (hitems : List.Forall₂ (Holds (TypeDef.ReadListed assembly)) items ts) :
      TypesRead assembly (.array items) ts

section Types

variable {assembly : String} {t : TypeDef}

/-- An entry under its full name. -/
def decodeEntry (assembly : String) (found : String × Json) : Except Malformed TypeDef :=
  inType assembly found.1 (TypeDef.decode assembly found.1 found.2)

theorem decodeEntry_eq_ok_iff
    {key : String}
    {entry : Json} :
    decodeEntry assembly (key, entry) = .ok t ↔
      t.assembly = assembly ∧ t.fqn = key ∧ Holds TypeDef.ReadFrom entry t := by
  rw [decodeEntry, inType, mapError_eq_ok_iff, TypeDef.decode_eq_ok_iff]

/-- An entry stands under a key when it is silent about its full name or repeats the key. -/
theorem keyedEntry_eq_ok_iff
    {key : String}
    {fields : Json.Fields}
    {found : String × Json} :
    keyedEntry assembly key (.object fields) = .ok found ↔
      (fields.get "fqn" = .null ∨ fields.get "fqn" = .string key) ∧
        found = (key, .object fields) := by
  simp only [keyedEntry]
  cases hv : fields.get "fqn" with
  | null => simp [eq_comm]
  | string text =>
      by_cases htext : text = key
      · simp [htext, eq_comm]
      · simp [htext, inType, mapError_eq_ok_iff]
  | _ => simp [inType, mapError_eq_ok_iff]

theorem eq_of_keyedEntry
    {key : String}
    {entry : Json}
    {found : String × Json}
    (h : keyedEntry assembly key entry = .ok found) :
    found = (key, entry) := by
  simp only [keyedEntry] at h
  split_ifs at h
  · cases h
    rfl
  · simp [inType, mapError_eq_ok_iff] at h

theorem keyed_eq_ok_iff
    {field : String × Json} :
    (∃ found, keyedEntry assembly field.1 field.2 = .ok found ∧
        decodeEntry assembly found = .ok t) ↔
      Holds (TypeDef.ReadUnder assembly field.1) field.2 t := by
  obtain ⟨key, entry⟩ := field
  constructor
  · rintro ⟨⟨name, value⟩, hfound, ht⟩
    obtain ⟨hname, hvalue⟩ := Prod.mk.inj (eq_of_keyedEntry hfound)
    subst hname hvalue
    obtain ⟨hassembly, hfqn, fields, rfl, hread⟩ := decodeEntry_eq_ok_iff.1 ht
    exact ⟨fields, rfl, (keyedEntry_eq_ok_iff.1 hfound).1, hfqn, hassembly, hread⟩
  · rintro ⟨fields, rfl, hheld, hfqn, hassembly, hread⟩
    exact ⟨_, keyedEntry_eq_ok_iff.2 ⟨hheld, rfl⟩,
      decodeEntry_eq_ok_iff.2 ⟨hassembly, hfqn, fields, rfl, hread⟩⟩

theorem listed_eq_ok_iff
    {item : Json} :
    (∃ found, listedEntry assembly item = .ok found ∧ decodeEntry assembly found = .ok t) ↔
      Holds (TypeDef.ReadListed assembly) item t := by
  constructor
  · rintro ⟨found, hfound, ht⟩
    unfold listedEntry at hfound
    split at hfound
    · rename_i fqn hfqn
      cases hfound
      obtain ⟨hassembly, rfl, fields, rfl, hread⟩ := decodeEntry_eq_ok_iff.1 ht
      exact ⟨fields, rfl, hfqn, hassembly, hread⟩
    · simp [inAssembly, mapError_eq_ok_iff] at hfound
  · rintro ⟨fields, rfl, hheld, hassembly, hread⟩
    refine ⟨(t.fqn, .object fields), ?_,
      decodeEntry_eq_ok_iff.2 ⟨hassembly, rfl, fields, rfl, hread⟩⟩
    simp [listedEntry, Json.fields?, hheld]

/-- The readers of types in either form and their relation. -/
theorem types_eq_ok_iff
    {value : Json}
    {ts : List TypeDef} :
    (∃ found, entries assembly value = .ok found ∧
        found.mapM (fun (fqn, entry) => inType assembly fqn (TypeDef.decode assembly fqn entry)) =
          .ok ts) ↔
      TypesRead assembly value ts := by
  change (∃ found, entries assembly value = .ok found ∧
    found.mapM (decodeEntry assembly) = .ok ts) ↔ _
  constructor
  · rintro ⟨found, hfound, hts⟩
    unfold entries at hfound
    rw [mapM_eq_ok_iff] at hts
    split at hfound
    · cases hfound
      cases hts
      exact .absent
    · rw [mapM_eq_ok_iff] at hfound
      exact .object ((forall₂_comp_iff.1 ⟨found, hfound, hts⟩).imp fun _ _ => keyed_eq_ok_iff.1)
    · rw [mapM_eq_ok_iff] at hfound
      exact .list ((forall₂_comp_iff.1 ⟨found, hfound, hts⟩).imp fun _ _ => listed_eq_ok_iff.1)
    · cases hfound
  · intro h
    simp only [mapM_eq_ok_iff]
    cases h with
    | absent => exact ⟨[], rfl, .nil⟩
    | object hfields =>
        simp only [entries, mapM_eq_ok_iff]
        exact forall₂_comp_iff.2 (hfields.imp fun _ _ => keyed_eq_ok_iff.2)
    | list hitems =>
        simp only [entries, mapM_eq_ok_iff]
        exact forall₂_comp_iff.2 (hitems.imp fun _ _ => listed_eq_ok_iff.2)

end Types

/-- What is read from the fields of a manifest. -/
structure ReadFrom (fields : Json.Fields) (m : Manifest) : Prop where
  name : (fields.get "name").name? = some m.name
  version : (fields.get "version").name? = some m.version
  dependencies : Dependency.ListRead (fields.get "dependencies") m.dependencies
  types : TypesRead m.name (fields.get "types") m.types
  description : fields.optionalString "description" = .ok m.description
  homepage : fields.optionalString "homepage" = .ok m.homepage
  license : fields.optionalString "license" = .ok m.license
  schema : fields.optionalString "schema" = .ok m.schema

theorem ofFields_eq_ok_iff
    {fields : Json.Fields}
    {m : Manifest} :
    ofFields fields = .ok m ↔ ReadFrom fields m := by
  constructor
  · intro h
    simp only [ofFields] at h
    split at h
    · rename_i name hname
      split at h
      · rename_i version hversion
        simp only [bind_eq_ok_iff, pure_eq_ok_iff, inAssembly, mapError_eq_ok_iff,
          Dependency.decodeList_eq_ok_iff] at h
        obtain ⟨dependencies, hdependencies, found, hfound, types, htypes, description,
          hdescription, homepage, hhomepage, license, hlicense, schema, hschema, rfl⟩ := h
        exact ⟨hname, hversion, hdependencies, types_eq_ok_iff.1 ⟨found, hfound, htypes⟩,
          hdescription, hhomepage, hlicense, hschema⟩
      · simp [inAssembly, mapError_eq_ok_iff] at h
    · simp [unattributed, mapError_eq_ok_iff] at h
  · rintro ⟨hname, hversion, hdependencies, htypes, hdescription, hhomepage, hlicense, hschema⟩
    obtain ⟨found, hfound, htypes⟩ := types_eq_ok_iff.2 htypes
    simp only [ofFields, hname, hversion, bind_eq_ok_iff, pure_eq_ok_iff, inAssembly,
      mapError_eq_ok_iff, Dependency.decodeList_eq_ok_iff]
    exact ⟨_, hdependencies, found, hfound, _, htypes, _, hdescription, _, hhomepage, _, hlicense,
      _, hschema, rfl⟩

/-- The reader of values and its relation. -/
theorem ofJson_eq_ok_iff
    {value : Json}
    {m : Manifest} :
    ofJson value = .ok m ↔ Holds ReadFrom value m := by
  cases value with
  | object fields => rw [ofJson, ofFields_eq_ok_iff, Json.holds_object]
  | _ => simp [ofJson, Holds, unattributed, mapError_eq_ok_iff]

end Manifest

/-- The value that a text spells. -/
def Source.ofText (text : String) : Except Defect Json :=
  (Json.read text).mapError .notJson

/-- The value that a source spells. -/
def Source.document : Source → Except Defect Json
  | .value (.string words) => ofText words
  | .value given => .ok given
  | .text words => ofText words
  | .bytes raw =>
      match Text.ofUtf8 raw with
      | .error _ => .error .notUtf8
      | .ok words => ofText words

/-- A manifest is read from the value that its source spells. -/
theorem Manifest.decode_eq
    (source : Source) :
    decode source = unattributed source.document >>= ofJson := by
  have htext : ∀ text, ofText text = unattributed (Source.ofText text) >>= ofJson := by
    intro text
    rw [ofText, Source.ofText]
    cases Json.read text <;> rfl
  cases source with
  | value value =>
      cases value with
      | string text => exact htext text
      | _ => rfl
  | text text => exact htext text
  | bytes bytes =>
      rw [decode, Source.document]
      cases Text.ofUtf8 bytes with
      | error fault => rfl
      | ok text => exact htext text

/-- What is read from a source is read from the value that it spells. -/
theorem Manifest.decode_eq_ok_iff
    {source : Source}
    {m : Manifest} :
    decode source = .ok m ↔ ∃ value, source.document = .ok value ∧ Holds ReadFrom value m := by
  simp only [decode_eq, bind_eq_ok_iff, unattributed, mapError_eq_ok_iff, ofJson_eq_ok_iff]

end TypeGraph
