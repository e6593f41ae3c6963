import TypeGraph.Proofs.Manifest.Documents

/-!
# Type entries with their full names

The field for types of a document holds entries under their full names or in a list.  An entry under a
key may repeat the key as its full name, and one of a list holds its own.  Nothing is asked here of an
entry beyond its full name: whether it is read as a type is a question about the entry alone.

**Results.**
* `TypeEntries.unique`: a field for types holds its entries in one way.
* `Manifest.entries_eq_ok_iff`: the reader takes the entries exactly where the field holds them.
* `Manifest.exists_entries`: the types of a manifest are read from the entries of its document.
-/

namespace TypeGraph

/-- An entry may stand under a key: it is no object, or an object that is silent about its full name or
repeats the key. -/
def StandsUnder (key : String) (entry : Json) : Prop :=
  ∀ inner : Json.Fields, entry = .object inner →
    inner.get "fqn" = .null ∨ inner.get "fqn" = .string key

/-- An entry holds its full name. -/
def HoldsFqn (entry : Json) (fqn : String) : Prop :=
  fqn ≠ "" ∧ ∃ inner : Json.Fields, entry = .object inner ∧ inner.get "fqn" = .string fqn

/-- The entries that a field for types holds, in their order and with their full names. -/
inductive TypeEntries : Json → List (String × Json) → Prop
  | absent :
      TypeEntries .null []
  | keyed
      {fields : Json.Fields}
      (hkeys : ∀ field ∈ fields, StandsUnder field.1 field.2) :
      TypeEntries (.object fields) fields
  | listed
      {found : List (String × Json)}
      (hfqns : ∀ entry ∈ found, HoldsFqn entry.2 entry.1) :
      TypeEntries (.array (found.map Prod.snd)) found

section Entries

variable {assembly : String} {value : Json} {found : List (String × Json)}

theorem standsUnder_object_iff
    {key : String}
    {fields : Json.Fields} :
    StandsUnder key (.object fields) ↔
      fields.get "fqn" = .null ∨ fields.get "fqn" = .string key := by
  simp [StandsUnder]

theorem holdsFqn_iff
    {entry : Json}
    {fqn : String} :
    HoldsFqn entry fqn ↔
      (entry.fields?.bind fun fields => (Json.Fields.get fields "fqn").name?) = some fqn := by
  cases entry with
  | object fields =>
      simp only [HoldsFqn, Json.fields?, Option.bind_some, Json.name?_eq_some_iff, Json.object.injEq]
      constructor
      · rintro ⟨hne, inner, rfl, hfqn⟩
        exact ⟨hfqn, hne⟩
      · rintro ⟨hfqn, hne⟩
        exact ⟨hne, fields, rfl, hfqn⟩
  | _ => simp [HoldsFqn, Json.fields?]

namespace Manifest

/-- The reader takes an entry from under its key exactly where it may stand there. -/
theorem keyedEntry_eq_ok_iff_standsUnder
    {field entry : String × Json} :
    keyedEntry assembly field.1 field.2 = .ok entry ↔
      StandsUnder field.1 field.2 ∧ field = entry := by
  obtain ⟨key, given⟩ := field
  cases given with
  | object fields =>
      rw [keyedEntry_eq_ok_iff, standsUnder_object_iff, @eq_comm _ entry]
  | _ => simp [keyedEntry, StandsUnder]

/-- The reader takes an entry from a list exactly where it holds its full name. -/
theorem listedEntry_eq_ok_iff
    {item : Json}
    {entry : String × Json} :
    listedEntry assembly item = .ok entry ↔ HoldsFqn item entry.1 ∧ item = entry.2 := by
  obtain ⟨fqn, given⟩ := entry
  simp only [holdsFqn_iff, listedEntry]
  split
  · rename_i held hheld
    simp [hheld]
  · rename_i hnone
    simp [hnone, inAssembly, mapError_eq_ok_iff]

/-- The reader takes the entries of types exactly where the field holds them. -/
theorem entries_eq_ok_iff :
    entries assembly value = .ok found ↔ TypeEntries value found := by
  constructor
  · intro h
    unfold entries at h
    split at h
    · cases h
      exact .absent
    · simp only [mapM_eq_ok_iff, keyedEntry_eq_ok_iff_standsUnder, List.forall₂_and_left,
        List.forall₂_eq_eq_eq] at h
      obtain ⟨hkeys, rfl⟩ := h
      exact .keyed hkeys
    · rename_i items
      simp only [mapM_eq_ok_iff, listedEntry_eq_ok_iff] at h
      have hitems : items = found.map Prod.snd := by
        rw [← List.forall₂_eq_eq_eq, List.forall₂_map_right_iff]
        exact h.imp fun _ _ => And.right
      subst hitems
      rw [List.forall₂_map_left_iff, List.forall₂_same] at h
      exact .listed fun entry hentry => (h entry hentry).1
    · cases h
  · intro h
    cases h with
    | absent => rfl
    | keyed hkeys =>
        simp only [entries, mapM_eq_ok_iff, keyedEntry_eq_ok_iff_standsUnder, List.forall₂_and_left,
          List.forall₂_eq_eq_eq]
        exact ⟨hkeys, trivial⟩
    | listed hfqns =>
        simp only [entries, mapM_eq_ok_iff, listedEntry_eq_ok_iff, List.forall₂_map_left_iff]
        exact List.forall₂_same.2 fun entry hentry => ⟨hfqns entry hentry, rfl⟩

end Manifest

/-- A field for types holds its entries in one way. -/
theorem TypeEntries.unique
    {found' : List (String × Json)}
    (h : TypeEntries value found)
    (h' : TypeEntries value found') :
    found = found' := by
  have he : Manifest.entries "" value = .ok found := Manifest.entries_eq_ok_iff.2 h
  rw [Manifest.entries_eq_ok_iff.2 h'] at he
  exact (Except.ok.inj he).symm

/-- The types of a manifest are read one by one from the entries of its document. -/
theorem Manifest.exists_entries
    {source : Source}
    {m : Manifest}
    (h : decode source = .ok m) :
    ∃ (fields : Json.Fields) (found : List (String × Json)),
      source.document = .ok (.object fields) ∧
      TypeEntries (fields.get "types") found ∧
      List.Forall₂ (fun entry t => TypeDef.decode m.name entry.1 entry.2 = .ok t) found m.types := by
  obtain ⟨_, hdocument, fields, rfl, hread⟩ := decode_eq_ok_iff.1 h
  obtain ⟨found, hfound, htypes⟩ := types_eq_ok_iff.2 hread.types
  refine ⟨fields, found, hdocument, entries_eq_ok_iff.1 hfound, ?_⟩
  simpa [mapM_eq_ok_iff, inType, mapError_eq_ok_iff] using htypes

end Entries

end TypeGraph
