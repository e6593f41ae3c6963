import TypeGraph.Proofs.Manifest.Decoded
import TypeGraph.Proofs.Manifest.Within

/-!
# Spellings that mean the same

Several parts of a manifest may be spelled in more than one way, and each spelling has a reader of its
own.  A respelling leads from one to another that is read alike.

**Results.**
* `Respelling.alike`: a part that is spelled in another way is read alike.
* `Manifest.decode_of_respelling`: a manifest with any number of its parts spelled in other ways.
-/

namespace TypeGraph

open Json (Holds)

/-- An entry that holds the given full name. -/
def Json.withFqn (fqn : String) : Json → Json
  | .object fields => .object (Json.Fields.put fields "fqn" (.string fqn))
  | other => other

/-- A part of a manifest and another way to spell it. -/
inductive Respelling : Place → Json → Json → Prop
  | listTypes
      (fields : Json.Fields) :
      Respelling .types (.object fields)
        (.array (fields.map fun field => field.2.withFqn field.1))
  | keyTypes
      {fields : Json.Fields}
      (hfqn : ∀ field ∈ fields, ∃ inner : Json.Fields, field.2 = .object inner ∧
        inner.get "fqn" = .string field.1)
      (hdistinct : fields.Distinct) :
      Respelling .types (.array (fields.map Prod.snd)) (.object fields)
  | keyDependencies
      (names : List String) :
      Respelling .dependencies (.array (names.map .string))
        (.object (names.map fun name => (name, .null)))
  | listDependencies
      {fields : Json.Fields}
      (hversion : ∀ field ∈ fields, field.2 = .null ∨
        ∃ inner : Json.Fields, field.2 = .object inner ∧ inner.get "version" = .null)
      (hdistinct : fields.Distinct) :
      Respelling .dependencies (.object fields)
        (.array (fields.map fun field => .string field.1))
  | enumMember
      (name : String) :
      Respelling .enumMember (.string name) (.object [("name", .string name)])
  | base
      (fqn : String) :
      Respelling .base (.string fqn) (.object [("fqn", .string fqn)])
  | interface
      (fqn : String) :
      Respelling .interface (.string fqn) (.object [("fqn", .string fqn)])
  | returns
      {value : Json}
      (hnull : value ≠ .null)
      (hvoid : value ≠ .string "void")
      (hbare : ∀ fields : Json.Fields, value = .object fields → fields.has "type" = false) :
      Respelling .returns value (.object [("type", value)])
  | absent
      {p : Place}
      {fields : Json.Fields}
      {slot : Slot}
      (hslot : slot ∈ p.slots fields)
      (htold : slot.told = false)
      (habsent : fields.lookup slot.name = none) :
      Respelling p (.object fields) (.object (fields.put slot.name .null))

section Types

variable {assembly key : String} {value : Json} {t : TypeDef}

/-- A type has a full name. -/
theorem TypeDef.ReadFrom.fqn_ne_empty
    {fields : Json.Fields}
    (h : TypeDef.ReadFrom fields t) :
    t.fqn ≠ "" := by
  obtain ⟨rest, hrest⟩ := h.exists_rest
  intro hempty
  have hlength : "".length = t.assembly.length + 1 + rest.length := by
    rw [← hempty, hrest, String.length_append, String.length_append]
    rfl
  rw [String.length_empty] at hlength
  omega

/-- No reader looks at the full name that an entry holds but the one that takes the entry from its
list or from under its key. -/
theorem TypeDef.ReadFrom.withFqn
    {fields : Json.Fields}
    (h : TypeDef.ReadFrom fields t)
    (given : Json) :
    TypeDef.ReadFrom (fields.put "fqn" given) t := by
  have hfqn : "fqn" ∉ Place.entrySlots.map Slot.name :=
    (List.nodup_cons.1 (Place.entry.slots_distinct fields)).1
  refine h.congr fun slot hslot => Slot.agrees_put_of_ne (fun hname => hfqn ?_) given
  exact hname ▸ List.mem_map_of_mem hslot

/-- An entry under its key may stand in a list when it holds the key as its full name. -/
theorem TypeDef.readListed_withFqn
    (h : Holds (TypeDef.ReadUnder assembly key) value t) :
    Holds (TypeDef.ReadListed assembly) (value.withFqn key) t := by
  obtain ⟨fields, rfl, -, rfl, hassembly, hread⟩ := h
  refine ⟨_, rfl, ?_, hassembly, hread.withFqn _⟩
  rw [Json.Fields.get_put_self, Json.name?_eq_some_iff]
  exact ⟨rfl, hread.fqn_ne_empty⟩

/-- An entry of a list may stand under the full name that it holds. -/
theorem TypeDef.readUnder_of_readListed
    (hfqn : ∃ inner : Json.Fields, value = .object inner ∧ inner.get "fqn" = .string key)
    (h : Holds (TypeDef.ReadListed assembly) value t) :
    Holds (TypeDef.ReadUnder assembly key) value t := by
  obtain ⟨fields, rfl, hheld, hassembly, hread⟩ := h
  obtain ⟨_, hinner, hget⟩ := hfqn
  cases hinner
  rw [hget, Json.name?_eq_some_iff, Json.string.injEq] at hheld
  exact ⟨fields, rfl, Or.inr hget, hheld.1.symm, hassembly, hread⟩

end Types

section Alike

variable {p : Place} {v w : Json}

theorem Respelling.alike_listTypes
    (fields : Json.Fields) :
    Place.types.Alike (.object fields)
      (.array (fields.map fun field => field.2.withFqn field.1)) := by
  intro assembly ts hread
  cases hread with
  | object hfields =>
      refine .list (List.forall₂_map_left_iff.2 (hfields.imp fun field t h => ?_))
      exact TypeDef.readListed_withFqn h

theorem Respelling.alike_keyTypes
    {fields : Json.Fields}
    (hfqn : ∀ field ∈ fields, ∃ inner : Json.Fields, field.2 = .object inner ∧
      inner.get "fqn" = .string field.1) :
    Place.types.Alike (.array (fields.map Prod.snd)) (.object fields) := by
  intro assembly ts hread
  cases hread with
  | list hitems =>
      rw [List.forall₂_map_left_iff] at hitems
      refine .object (((List.forall₂_and_left _ _).2 ⟨hfqn, hitems⟩).imp fun field t h => ?_)
      exact TypeDef.readUnder_of_readListed h.1 h.2

theorem Respelling.alike_keyDependencies
    (names : List String) :
    Place.dependencies.Alike (.array (names.map .string))
      (.object (names.map fun name => (name, .null))) := by
  intro ds hread
  cases hread with
  | @list items names' hitems hdistinct =>
      rw [List.forall₂_map_left_iff] at hitems
      refine .object (List.forall₂_map_left_iff.2 (List.forall₂_map_right_iff.2 ?_))
      refine hitems.imp fun name name' h => ?_
      obtain ⟨hname, hne⟩ := Json.name?_eq_some_iff.1 h
      cases hname
      exact ⟨rfl, hne, .absent⟩

/-- A dependency without a version is read from a value that has none. -/
theorem Dependency.FieldRead.eq_of_noVersion
    {field : String × Json}
    {d : Dependency}
    (h : Dependency.FieldRead field d)
    (hversion : field.2 = .null ∨
      ∃ inner : Json.Fields, field.2 = .object inner ∧ inner.get "version" = .null) :
    d = ⟨field.1, none⟩ := by
  obtain ⟨name, version⟩ := d
  obtain ⟨rfl, -, hv⟩ := h
  rcases hversion with hnull | ⟨inner, hinner, hnull⟩
  · rw [hnull] at hv
    cases hv
    rfl
  · rw [hinner] at hv
    cases hv with
    | held hv =>
        rw [Json.Fields.optionalString, hnull] at hv
        cases hv
        rfl

theorem Respelling.alike_listDependencies
    {fields : Json.Fields}
    (hversion : ∀ field ∈ fields, field.2 = .null ∨
      ∃ inner : Json.Fields, field.2 = .object inner ∧ inner.get "version" = .null)
    (hdistinct : fields.Distinct) :
    Place.dependencies.Alike (.object fields)
      (.array (fields.map fun field => .string field.1)) := by
  intro ds hread
  cases hread with
  | object hfields =>
      have hboth := (List.forall₂_and_left _ _).2 ⟨hversion, hfields⟩
      have hds : ds = (fields.map Prod.fst).map fun name => ⟨name, none⟩ := by
        rw [List.map_map, ← List.forall₂_eq_eq_eq, List.forall₂_map_right_iff]
        exact (hboth.imp fun field d h => h.2.eq_of_noVersion h.1).flip
      rw [hds]
      refine .list (List.forall₂_map_left_iff.2 (List.forall₂_map_right_iff.2 ?_)) hdistinct
      refine List.forall₂_same.2 fun field hfield => ?_
      obtain ⟨d, -, hd⟩ := exists_of_mem_forall₂ hfields.flip hfield
      exact Json.name?_eq_some_iff.2 ⟨rfl, hd.nonempty⟩

theorem Respelling.alike_returns
    {value : Json}
    (hnull : value ≠ .null)
    (hvoid : value ≠ .string "void")
    (hbare : ∀ fields : Json.Fields, value = .object fields → fields.has "type" = false) :
    Place.returns.Alike value (.object [("type", value)]) := by
  rintro ⟨returns, isOptional⟩ hread
  cases hread with
  | absent => exact absurd rfl hnull
  | void => exact absurd rfl hvoid
  | wrapped htype => exact absurd htype.present (by simp [hbare _ rfl])
  | bare _ _ htype hoptional => exact .wrapped ⟨rfl, htype, false, rfl, hoptional⟩

/-- A field that reads as null where it is absent may be there with null. -/
theorem Respelling.alike_absent
    {fields : Json.Fields}
    {slot : Slot}
    (hslot : slot ∈ p.slots fields)
    (htold : slot.told = false)
    (habsent : fields.lookup slot.name = none) :
    p.Alike (.object fields) (.object (fields.put slot.name .null)) := by
  refine Place.alike_of_agreeOn (Place.isRecord_of_mem_slots hslot) fun other hother => ?_
  by_cases hname : other.name = slot.name
  · obtain rfl := List.inj_on_of_nodup_map (p.slots_distinct fields) hother hslot hname
    refine ⟨?_, by simp [htold]⟩
    rw [Json.Fields.get_put_self, Json.Fields.get, habsent]
    exact Place.alike_refl _ _
  · exact Slot.agrees_put_of_ne hname .null

/-- A part of a manifest that is spelled in another way is read alike. -/
theorem Respelling.alike
    (h : Respelling p v w) :
    p.Alike v w := by
  cases h with
  | listTypes fields => exact alike_listTypes fields
  | keyTypes hfqn hdistinct => exact alike_keyTypes hfqn
  | keyDependencies names => exact alike_keyDependencies names
  | listDependencies hversion hdistinct => exact alike_listDependencies hversion hdistinct
  | enumMember name =>
      intro m hread
      cases hread with
      | text hne => exact .given (Json.name?_eq_some_iff.2 ⟨rfl, hne⟩) .absent
  | base fqn =>
      intro base hread
      cases hread with
      | text hne => exact .held (Json.name?_eq_some_iff.2 ⟨rfl, hne⟩)
  | interface fqn => exact fun _ hread => hread
  | returns hnull hvoid hbare => exact alike_returns hnull hvoid hbare
  | absent hslot htold habsent => exact alike_absent hslot htold habsent

end Alike

/-- A document that is read as a manifest is read as the same one after any number of its parts were
spelled in other ways, anywhere in the document. -/
theorem Manifest.decode_of_respelling
    {source source' : Source}
    {v w : Json}
    {m : Manifest}
    (hv : source.document = .ok v)
    (hw : source'.document = .ok w)
    (hrespelling : Relation.ReflTransGen (Within Respelling .manifest) v w)
    (h : decode source = .ok m) :
    decode source' = .ok m :=
  decode_of_within (fun _ _ _ => Respelling.alike) hv hw hrespelling h

/-- Types in a list, the one with a member that is spelled as an object. -/
theorem Manifest.decode_of_respelling_enum :
    ∃ m, decode (.value (.object [("name", .string "a"), ("version", .string "1"),
        ("types", .object [("a.E", .object [("kind", .string "enum"),
          ("members", .array [.string "X"])])])])) = .ok m ∧
      decode (.value (.object [("name", .string "a"), ("version", .string "1"),
        ("types", .array [.object [("kind", .string "enum"),
          ("members", .array [.object [("name", .string "X")]]),
          ("fqn", .string "a.E")]])])) = .ok m := by
  have hmembers : Within Respelling (.list .enumMember) (.array [.string "X"])
      (.array [.object [("name", .string "X")]]) :=
    @Within.item _ (.list .enumMember) .enumMember [] [] _ _ rfl (.here (.enumMember "X"))
  have hmembersSlot : Slot.plain "members" (.list .enumMember) ∈ Place.entry.slots
      [("kind", .string "enum"), ("members", .array [.string "X"])] := by
    simp [Place.slots, Place.entrySlots]
  have hentry : Within Respelling .types
      (.object [("a.E", .object [("kind", .string "enum"), ("members", .array [.string "X"])])])
      (.object [("a.E", .object [("kind", .string "enum"),
        ("members", .array [.object [("name", .string "X")]])])]) :=
    @Within.value _ .types .entry [] [] "a.E" _ _ rfl (.field hmembersSlot rfl hmembers)
  have hlist : Respelling .types
      (.object [("a.E", .object [("kind", .string "enum"),
        ("members", .array [.object [("name", .string "X")]])])])
      (.array [.object [("kind", .string "enum"),
        ("members", .array [.object [("name", .string "X")]]), ("fqn", .string "a.E")]]) :=
    .listTypes [("a.E", .object [("kind", .string "enum"),
        ("members", .array [.object [("name", .string "X")]])])]
  have hslot : ∀ fields, Slot.plain "types" .types ∈ Place.manifest.slots fields := by
    simp [Place.slots, Place.manifestSlots]
  have hsteps := (Relation.ReflTransGen.single (Within.field
      (hslot [("name", .string "a"), ("version", .string "1"),
        ("types", .object [("a.E", .object [("kind", .string "enum"),
          ("members", .array [.string "X"])])])]) rfl hentry)).tail
    (.field (hslot _) rfl (.here hlist))
  have hdecode : decode (.value (.object [("name", .string "a"), ("version", .string "1"),
      ("types", .object [("a.E", .object [("kind", .string "enum"),
        ("members", .array [.string "X"])])])])) =
      .ok ⟨"a", "1", [], [⟨"a.E", "a", "E", none, .empty, .ofEnum [⟨"X", .empty⟩]⟩],
        none, none, none, none⟩ := by rfl
  exact ⟨_, hdecode, decode_of_respelling rfl rfl hsteps hdecode⟩

end TypeGraph
