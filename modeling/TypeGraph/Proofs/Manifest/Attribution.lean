import TypeGraph.Proofs.Manifest.TypeEntries

/-!
# Attribution of defects

Once the name of the assembly is known, every defect of a manifest is attributed to it, however deep in
the document it is found.  A defect of a type entry is attributed to the full name of the entry as well.
The entries are read one by one and no entry looks at another, so the first one that is refused decides
how the manifest is refused, as it does when it is the only one.

**Results.**
* `Manifest.blames_ofFields`: the defects of an object with a name.
* `Manifest.ofFields_of_first`: an object whose first refused entry is known.
* `Manifest.refusals_attributed`: the defects of a document with a name, and those of its entries.
-/

namespace TypeGraph

/-- Every error of a result is attributed to the assembly. -/
def Blames {α : Type} (assembly : String) (result : Except Malformed α) : Prop :=
  ∀ e, result = .error e → e.assembly = some assembly

/-- A field for types with one entry only, in the form that the field has. -/
def onlyEntry (given : Json) (entry : String × Json) : Json :=
  match given with
  | .array _ => .array [entry.2]
  | _ => .object [entry]

section Blames

variable {α β : Type} {assembly : String}

theorem blames_ok (x : α) : Blames assembly (.ok x) := by
  intro e h
  cases h

theorem Blames.bind
    {result : Except Malformed α}
    {next : α → Except Malformed β}
    (h : Blames assembly result)
    (hnext : ∀ x, Blames assembly (next x)) :
    Blames assembly (result >>= next) := by
  intro e he
  rcases bind_eq_error_iff.1 he with hresult | ⟨x, -, hx⟩
  · exact h e hresult
  · exact hnext x e hx

theorem blames_inAssembly (result : Except Defect α) :
    Blames assembly (inAssembly assembly result) := by
  intro e he
  obtain ⟨defect, -, rfl⟩ := mapError_eq_error_iff.1 he
  rfl

theorem blames_inType
    (fqn : String)
    (result : Except Defect α) :
    Blames assembly (inType assembly fqn result) := by
  intro e he
  obtain ⟨defect, -, rfl⟩ := mapError_eq_error_iff.1 he
  rfl

theorem blames_mapM
    {read : α → Except Malformed β}
    {xs : List α}
    (h : ∀ x, Blames assembly (read x)) :
    Blames assembly (xs.mapM read) := by
  intro e he
  obtain ⟨x, -, hx⟩ := exists_of_mapM_eq_error he
  exact h x e hx

end Blames

namespace Manifest

variable {fields : Json.Fields} {name : String}

theorem blames_keyedEntry
    (field : String × Json) :
    Blames name (keyedEntry name field.1 field.2) := by
  simp only [keyedEntry]
  split_ifs
  · exact blames_ok _
  · exact blames_inType _ _

theorem blames_listedEntry
    (item : Json) :
    Blames name (listedEntry name item) := by
  unfold listedEntry
  split
  · exact blames_ok _
  · exact blames_inAssembly _

theorem blames_entries
    (given : Json) :
    Blames name (entries name given) := by
  unfold entries
  split
  · exact blames_ok _
  · exact blames_mapM blames_keyedEntry
  · exact blames_mapM blames_listedEntry
  · exact blames_inAssembly _

/-- Every defect of an object with a name is attributed to the assembly of that name. -/
theorem blames_ofFields
    (hname : (fields.get "name").name? = some name) :
    Blames name (ofFields fields) := by
  simp only [ofFields, hname]
  split
  · refine (blames_inAssembly _).bind fun _ => (blames_entries _).bind fun _ =>
      (blames_mapM fun _ => blames_inType _ _).bind fun _ => ?_
    exact (blames_inAssembly _).bind fun _ => (blames_inAssembly _).bind fun _ =>
      (blames_inAssembly _).bind fun _ => (blames_inAssembly _).bind fun _ => blames_ok _
  · exact blames_inAssembly _

/-- The first entry that is refused decides how an object is refused, when its name, its version, its
dependencies and the full names of its entries are valid. -/
theorem ofFields_of_first
    {version fqn : String}
    {ds : List Dependency}
    {before after : List (String × Json)}
    {entry : Json}
    {defect : Defect}
    (hname : (fields.get "name").name? = some name)
    (hversion : (fields.get "version").name? = some version)
    (hdependencies : Dependency.ListRead (fields.get "dependencies") ds)
    (htypes : TypeEntries (fields.get "types") (before ++ (fqn, entry) :: after))
    (hbefore : ∀ other ∈ before, ∃ t, TypeDef.decode name other.1 other.2 = .ok t)
    (hentry : TypeDef.decode name fqn entry = .error defect) :
    ofFields fields = .error ⟨some name, some fqn, defect⟩ := by
  have hds : inAssembly name (Dependency.decodeList (fields.get "dependencies")) = .ok ds :=
    mapError_eq_ok_iff.2 (Dependency.decodeList_eq_ok_iff.2 hdependencies)
  have hfirst : (before ++ (fqn, entry) :: after).mapM (decodeEntry name) =
      .error ⟨some name, some fqn, defect⟩ := by
    refine mapM_eq_error_of_first (fun other hother => ?_) ?_
    · obtain ⟨t, ht⟩ := hbefore other hother
      exact ⟨t, mapError_eq_ok_iff.2 ht⟩
    · exact mapError_eq_error_iff.2 ⟨defect, hentry, rfl⟩
  simp only [ofFields, hname, hversion]
  rw [bind_of_ok hds, bind_of_ok (entries_eq_ok_iff.2 htypes)]
  exact bind_eq_error_iff.2 (Or.inl hfirst)

/-- An object is refused for the only entry it has, when it is otherwise valid. -/
theorem ofFields_of_only
    {version fqn : String}
    {ds : List Dependency}
    {given entry : Json}
    {defect : Defect}
    (hname : (fields.get "name").name? = some name)
    (hversion : (fields.get "version").name? = some version)
    (hdependencies : Dependency.ListRead (fields.get "dependencies") ds)
    (hgiven : TypeEntries given [(fqn, entry)])
    (hentry : TypeDef.decode name fqn entry = .error defect) :
    ofFields (fields.put "types" given) = .error ⟨some name, some fqn, defect⟩ := by
  have hother : ∀ field, field ≠ "types" → (fields.put "types" given).get field = fields.get field :=
    fun field hne => Json.Fields.get_put_of_ne fields given hne
  rw [← hother "name" (by decide)] at hname
  rw [← hother "version" (by decide)] at hversion
  rw [← hother "dependencies" (by decide)] at hdependencies
  have htypes : TypeEntries ((fields.put "types" given).get "types") ([] ++ (fqn, entry) :: []) := by
    rw [Json.Fields.get_put_self]
    exact hgiven
  exact ofFields_of_first hname hversion hdependencies htypes (by simp) hentry

end Manifest

/-- An entry of a field for types may be its only one. -/
theorem TypeEntries.onlyEntry
    {given : Json}
    {found : List (String × Json)}
    {entry : String × Json}
    (h : TypeEntries given found)
    (hentry : entry ∈ found) :
    TypeEntries (onlyEntry given entry) [entry] := by
  cases h with
  | absent => simp at hentry
  | keyed hkeys => exact .keyed (List.forall_mem_singleton.2 (hkeys entry hentry))
  | listed hfqns =>
      have honly : ∀ e ∈ [entry], HoldsFqn e.2 e.1 :=
        List.forall_mem_singleton.2 (hfqns entry hentry)
      exact .listed honly

/-- A document with a name that is refused is refused with that name as its assembly.  Let its version,
its dependencies and the full names of its entries be valid, and let some entry not be read as a type.
Then there is a first such entry, and the document is refused for its defect, with its full name, exactly
as the document is in which it is the only entry. -/
theorem Manifest.refusals_attributed
    {source : Source}
    {fields : Json.Fields}
    {name : String}
    (hdocument : source.document = .ok (.object fields))
    (hname : (fields.get "name").name? = some name) :
    (∀ e, decode source = .error e → e.assembly = some name) ∧
      ∀ (version : String) (ds : List Dependency) (found : List (String × Json)),
        (fields.get "version").name? = some version →
        Dependency.ListRead (fields.get "dependencies") ds →
        TypeEntries (fields.get "types") found →
        (∃ entry ∈ found, ∀ t, TypeDef.decode name entry.1 entry.2 ≠ .ok t) →
        ∃ before fqn entry after defect,
          found = before ++ (fqn, entry) :: after ∧
          (∀ other ∈ before, ∃ t, TypeDef.decode name other.1 other.2 = .ok t) ∧
          TypeDef.decode name fqn entry = .error defect ∧
          decode source = .error ⟨some name, some fqn, defect⟩ ∧
          decode (.value (.object
            (fields.put "types" (onlyEntry (fields.get "types") (fqn, entry))))) =
            .error ⟨some name, some fqn, defect⟩ := by
  have hsource : decode source = ofFields fields := by
    rw [decode_eq, hdocument]
    rfl
  rw [hsource]
  refine ⟨blames_ofFields hname, ?_⟩
  intro version ds found hversion hdependencies hfound hrefused
  obtain ⟨before, ⟨fqn, entry⟩, after, defect, rfl, hbefore, hentry⟩ :=
    exists_first_error (f := fun entry : String × Json => TypeDef.decode name entry.1 entry.2) hrefused
  have hmem : (fqn, entry) ∈ before ++ (fqn, entry) :: after := by simp
  have honly := hfound.onlyEntry hmem
  exact ⟨before, fqn, entry, after, defect, rfl, hbefore, hentry,
    ofFields_of_first hname hversion hdependencies hfound hbefore hentry,
    ofFields_of_only hname hversion hdependencies honly hentry⟩

/-- Three entries, the last two of which are not read as types. -/
def faultyEntries : Json.Fields :=
  [("a.D", .object [("kind", .string "enum")]),
    ("a.E", .object [("kind", .string "enum"), ("members", .array [.null])]),
    ("a.F", .object [("kind", .string "union")])]

/-- A document with these entries. -/
def faultyDocument : Json.Fields :=
  [("name", .string "a"), ("version", .string "1"), ("types", .object faultyEntries)]

/-- The document is refused for the second entry, as it is when it has no other. -/
theorem Manifest.refusals_attributed_of_faultyDocument :
    decode (.value (.object faultyDocument)) = .error ⟨some "a", some "a.E", .enumMemberShape⟩ ∧
      ∃ entry, ("a.E", entry) ∈ faultyEntries ∧
        decode (.value (.object (faultyDocument.put "types" (.object [("a.E", entry)])))) =
          .error ⟨some "a", some "a.E", .enumMemberShape⟩ := by
  have hdecode : decode (.value (.object faultyDocument)) =
      .error ⟨some "a", some "a.E", .enumMemberShape⟩ := by
    rfl
  have hkeys : ∀ field ∈ faultyEntries, StandsUnder field.1 field.2 := by
    simp only [faultyEntries, List.forall_mem_cons, standsUnder_object_iff]
    exact ⟨Or.inl rfl, Or.inl rfl, Or.inl rfl, by simp⟩
  have hrefused : ∃ entry ∈ faultyEntries, ∀ t, TypeDef.decode "a" entry.1 entry.2 ≠ .ok t := by
    refine ⟨("a.F", .object [("kind", .string "union")]), by simp [faultyEntries], fun t h => ?_⟩
    cases h
  have hdocument : (Source.value (.object faultyDocument)).document = .ok (.object faultyDocument) :=
    rfl
  have hname : (faultyDocument.get "name").name? = some "a" := rfl
  obtain ⟨before, fqn, entry, after, defect, hfound, -, -, he, honly⟩ :=
    (refusals_attributed hdocument hname).2 "1" [] faultyEntries rfl .absent (.keyed hkeys) hrefused
  rw [hdecode] at he
  cases he
  exact ⟨hdecode, entry, by simp [hfound], honly⟩

end TypeGraph
