import TypeGraph.Proofs.Manifest.Within

/-!
# Fields that no reader knows

A record may hold fields that its reader does not know, and its fields may come in any order.  Which
fields are known differs from one record to the next, and with what a method returns it depends on
the record itself: the field `type` makes it a wrapper, in which the fields of a reference are not
known.

**Results.**
* `Padding.alike`: unknown fields and the order of fields do not matter to any reader.
* `Manifest.decode_of_padding`: nor do they to the manifest, wherever in the document they are.
-/

namespace TypeGraph

/-- A record gets a field that its reader does not know, or its fields come in another order. -/
inductive Padding : Place → Json → Json → Prop
  | insert
      {p : Place}
      {fields : Json.Fields}
      {name : String}
      (hp : p.isRecord = true)
      (hname : ∀ slot ∈ p.slots fields, slot.name ≠ name)
      (value : Json) :
      Padding p (.object fields) (.object (fields.put name value))
  | reorder
      {p : Place}
      {fields fields' : Json.Fields}
      (hp : p.isRecord = true)
      (hdistinct : fields.Distinct)
      (hperm : fields.Perm fields') :
      Padding p (.object fields) (.object fields')

/-- Neither unknown fields nor the order of fields matter to the reader of a record. -/
theorem Padding.alike
    {p : Place}
    {v w : Json}
    (h : Padding p v w) :
    p.Alike v w := by
  cases h with
  | insert hp hname value =>
      exact Place.alike_of_agreeOn hp fun slot hslot =>
        Slot.agrees_put_of_ne (hname slot hslot) value
  | reorder hp hdistinct hperm =>
      exact Place.alike_of_agreeOn hp fun slot _ =>
        Slot.agrees_of_lookup (Json.Fields.lookup_perm hdistinct hperm slot.name)

/-- A document that is read as a manifest is read as the same one after any number of fields that
their readers do not know were inserted into its records, at any depth, and after the fields of any
of its records were put into another order. -/
theorem Manifest.decode_of_padding
    {source source' : Source}
    {v w : Json}
    {m : Manifest}
    (hv : source.document = .ok v)
    (hw : source'.document = .ok w)
    (hpadding : Relation.ReflTransGen (Within Padding .manifest) v w)
    (h : decode source = .ok m) :
    decode source' = .ok m :=
  decode_of_within (fun _ _ _ => Padding.alike) hv hw hpadding h

/-- A field beside the version of a dependency, and the fields of the manifest in another order. -/
theorem Manifest.decode_of_padding_dependency :
    ∃ m, decode (.value (.object [("name", .string "a"), ("version", .string "1"),
        ("dependencies", .object [("b", .object [("version", .string "2")])])])) = .ok m ∧
      decode (.value (.object [
        ("dependencies", .object [("b", .object [("version", .string "2"), ("since", .null)])]),
        ("version", .string "1"), ("name", .string "a")])) = .ok m := by
  have hversion : Padding .version (.object [("version", .string "2")])
      (.object [("version", .string "2"), ("since", .null)]) :=
    @Padding.insert .version [("version", .string "2")] "since" rfl (by decide) .null
  have hdependencies : Within Padding .dependencies
      (.object [("b", .object [("version", .string "2")])])
      (.object [("b", .object [("version", .string "2"), ("since", .null)])]) :=
    @Within.value _ .dependencies .version [] [] "b" _ _ rfl (.here hversion)
  have hslot : Slot.plain "dependencies" .dependencies ∈ Place.manifest.slots
      [("name", .string "a"), ("version", .string "1"),
        ("dependencies", .object [("b", .object [("version", .string "2")])])] := by
    simp [Place.slots, Place.manifestSlots]
  have hdistinct : Json.Fields.Distinct [("name", .string "a"), ("version", .string "1"),
      ("dependencies", .object [("b", .object [("version", .string "2"), ("since", .null)])])] := by
    simp [Json.Fields.Distinct]
  have hsteps := (Relation.ReflTransGen.single (Within.field hslot rfl hdependencies)).tail
    (.here (.reorder rfl hdistinct (List.reverse_perm _).symm))
  have hdecode : decode (.value (.object [("name", .string "a"), ("version", .string "1"),
      ("dependencies", .object [("b", .object [("version", .string "2")])])])) =
      .ok ⟨"a", "1", [⟨"b", some "2"⟩], [], none, none, none, none⟩ := by rfl
  exact ⟨_, hdecode, decode_of_padding rfl rfl hsteps hdecode⟩

end TypeGraph
