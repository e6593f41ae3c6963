import Mathlib.Data.List.Permutation
import TypeGraph.Proofs.TypeRef.Flatten
import TypeGraph.Proofs.TypeRef.Parsing
import TypeGraph.TypeRef.Structured

/-!
# Spelling a reference and reading it again

The compact spelling of a reference splits into a derivation, member by member, whose meaning is the
reference with its inner unions put in place.  The structured spelling keeps every union where it is.

**Results.**
* `Proper.derivation`: the derivation of a compact spelling.
* `Spelled.decode`: what is read from a structured spelling with compact parts.
* `proper_of_parse`: every reference that is read from a compact text can be spelled again.
* `spelling_round_trip`: the two spellings of a reference, and what is read from them.
-/

namespace TypeGraph
namespace TypeRef

section Pieces

variable {text rest : List Char} {ts us : List Token} {name head : String}

/-- A whole name is the longest one there. -/
theorem longestName_nil
    {w : List Char}
    (h : w ∈ Name) :
    LongestName w [] :=
  ⟨h, fun _ _ hprefix => by simpa using hprefix.length_le⟩

theorem ends_cons
    {c : Char}
    (h : isNamePart c = false) :
    Ends (c :: rest) := by
  simpa [Ends] using h

theorem splits_name
    (h : name.toList ∈ Name) :
    Splits name.toList [.name name] [] := by
  have hsplits := Splits.name (longestName_nil h) (.done [])
  rwa [List.append_nil, String.ofList_toList] at hsplits

theorem splits_mark
    {c : Char}
    {t : Token}
    (h : markToken? c = some t) :
    Splits (c :: rest) [t] rest :=
  .mark h (.done rest)

/-- What stands before a mark splits as it does alone. -/
theorem Splits.before_mark
    {c : Char}
    {t : Token}
    (h : Splits text ts [])
    (hc : markToken? c = some t) :
    Splits (text ++ c :: rest) (ts ++ [t]) rest :=
  (h.append (ends_cons (isBlank_of_markToken? hc).2)).trans (splits_mark hc)

/-- A generic with one argument. -/
theorem splits_generic
    (hhead : head.toList ∈ Name)
    (h : Splits text ts []) :
    Splits (head.toList ++ '<' :: (text ++ ['>'])) (.name head :: .less :: (ts ++ [.greater])) [] :=
  ((splits_name hhead).before_mark rfl).trans (h.before_mark rfl)

/-- A generic with two arguments, the second after a space. -/
theorem splits_genericPair
    (hhead : head.toList ∈ Name)
    (hname : name.toList ∈ Name)
    (h : Splits text ts []) :
    Splits (head.toList ++ '<' :: (name.toList ++ ',' :: ' ' :: (text ++ ['>'])))
      (.name head :: .less :: ([.name name] ++ .comma :: (ts ++ [.greater]))) [] :=
  (((splits_name hhead).before_mark rfl).trans ((splits_name hname).before_mark rfl)).trans
    (.blank rfl (h.before_mark rfl))

/-- Two texts with a bar between them, after a space and before one. -/
theorem splits_bar
    (h : Splits text ts [])
    (h' : Splits rest us []) :
    Splits (text ++ ' ' :: '|' :: ' ' :: rest) (ts ++ .bar :: us) [] := by
  have hbar : Splits (' ' :: '|' :: ' ' :: rest) (.bar :: us) [] :=
    .blank rfl (.mark rfl (.blank rfl h'))
  exact (h.append (ends_cons rfl)).trans hbar

theorem mem_name_of_nameLength
    (h : name.toList ≠ [] ∧ nameLength (name.toList ++ []) = name.toList.length) :
    name.toList ∈ Name :=
  (longestName_iff.2 h).1

theorem name_mem
    (p : Primitive) :
    p.name.toList ∈ Name := by
  refine mem_name_of_nameLength ?_
  cases p <;> decide

theorem array_mem :
    "Array".toList ∈ Name :=
  mem_name_of_nameLength (by decide)

theorem map_mem :
    "Map".toList ∈ Name :=
  mem_name_of_nameLength (by decide)

/-- A name with a dot is no primitive. -/
theorem primitive_ne_of_dot
    (h : '.' ∈ name.toList)
    (p : Primitive) :
    p.name ≠ name := by
  rintro rfl
  revert h
  cases p <;> decide

end Pieces

namespace Derivation

/-- The alternatives of two unions, one after the other. -/
def alternatives (u : Derivation .union) : Derivation .union → Derivation .union
  | member p => alternative u p
  | alternative v p => alternative (alternatives u v) p

theorem tokens_alternatives
    (u : Derivation .union) :
    ∀ v : Derivation .union, (alternatives u v).tokens = u.tokens ++ .bar :: v.tokens
  | member p => by simp [alternatives, tokens]
  | alternative v p => by simp [alternatives, tokens, tokens_alternatives u v]

/-- Only a union denotes more than one member. -/
theorem DenotesMembers.exists_eq
    {part : Part}
    {d : Derivation part}
    {refs : List TypeRef}
    (h : d.DenotesMembers refs)
    (hpart : part ≠ .union) :
    ∃ r, refs = [r] := by
  induction h with
  | plain _ ih => exact ih (by simp)
  | member => exact absurd rfl hpart
  | alternative => exact absurd rfl hpart
  | _ => exact ⟨_, rfl⟩

theorem DenotesMembers.alternatives
    {u : Derivation .union}
    {refs : List TypeRef}
    (hu : u.DenotesMembers refs) :
    ∀ {v : Derivation .union} {refs' : List TypeRef}, v.DenotesMembers refs' →
      (u.alternatives v).DenotesMembers (refs ++ refs')
  | Derivation.member p, _, hv => by
      cases hv with
      | member hp =>
          obtain ⟨r, rfl⟩ := hp.exists_eq (by simp)
          rw [Derivation.alternatives]
          exact .alternative hu hp
  | Derivation.alternative v p, _, hv => by
      cases hv with
      | alternative hv hp =>
          rw [Derivation.alternatives, ← List.append_assoc]
          exact .alternative (hu.alternatives hv) hp

end Derivation

section Compact

variable {r : TypeRef} {members : List TypeRef}

/-- A union splits member by member. -/
theorem exists_derivation_members
    (hne : members ≠ [])
    (h : ∀ member ∈ members, ∃ u : Derivation .union,
      Splits member.text.toList u.tokens [] ∧ u.DenotesMembers member.flatten.spread) :
    ∃ u : Derivation .union,
      Splits (" | ".intercalate (texts members)).toList u.tokens [] ∧
        u.DenotesMembers (flattenMembers members) := by
  induction members with
  | nil => exact absurd rfl hne
  | cons member rest ih =>
      obtain ⟨u, hsplits, hu⟩ := h member (by simp)
      cases rest with
      | nil =>
          refine ⟨u, by simpa [texts] using hsplits, ?_⟩
          simpa [flattenMembers] using hu
      | cons next rest =>
          obtain ⟨v, hsplits', hv⟩ := ih (by simp) fun m hm => h m (List.mem_cons_of_mem _ hm)
          refine ⟨u.alternatives v, ?_, hu.alternatives hv⟩
          rw [Derivation.tokens_alternatives]
          simpa [texts, String.intercalate_cons_cons] using splits_bar hsplits hsplits'

/-- The derivation of a compact spelling, which denotes what the reference puts into a union. -/
theorem Proper.derivation
    (h : r.Proper) :
    ∃ u : Derivation .union,
      Splits r.text.toList u.tokens [] ∧ u.DenotesMembers r.flatten.spread := by
  induction h with
  | primitive p =>
      exact ⟨.member (.plain (.named p.name)), splits_name (name_mem p),
        .member (.plain (.primitive p))⟩
  | @named fqn hn hd =>
      exact ⟨.member (.plain (.named fqn)), splits_name hn,
        .member (.plain (.named (primitive_ne_of_dot hd) hd))⟩
  | @array element he ih =>
      obtain ⟨u, hsplits, hu⟩ := ih
      refine ⟨.member (.plain (.generic "Array" u)), ?_, .member (.plain ?_)⟩
      · simpa [text, Derivation.tokens] using splits_generic array_mem hsplits
      · have hmeaning := Derivation.DenotesMembers.array hu
        rwa [he.flatten.ofMembers_spread] at hmeaning
  | @map element he ih =>
      obtain ⟨u, hsplits, hu⟩ := ih
      refine ⟨.member (.plain (.genericPair "Map" (.member (.plain (.named "string"))) u)), ?_,
        .member (.plain ?_)⟩
      · simpa [text, Derivation.tokens, Primitive.name] using
          splits_genericPair map_mem (name_mem .string) hsplits
      · have hkey := Derivation.DenotesMembers.member (.plain (.primitive .string))
        have hmeaning := Derivation.DenotesMembers.mapPair hkey hu
        rwa [he.flatten.ofMembers_spread] at hmeaning
  | @union members hlength hm ih =>
      refine exists_derivation_members ?_ ih
      rintro rfl
      simp at hlength

/-- A compact spelling is read with the inner unions put in place. -/
theorem Proper.parse_text
    (h : r.Proper) :
    parse r.text = .ok r.flatten := by
  obtain ⟨u, hsplits, hu⟩ := h.derivation
  exact parse_eq_ok_iff.2 ⟨u, hsplits, _, hu, h.flatten.ofMembers_spread.symm⟩

theorem proper_ofMembers
    (hne : members ≠ [])
    (h : ∀ member ∈ members, member.Proper) :
    (ofMembers members).Proper := by
  match members with
  | [] => exact absurd rfl hne
  | [member] => exact h member (by simp)
  | first :: second :: rest => exact .union (by simp) h

/-- What a derivation denotes is proper, since its names are names. -/
theorem Derivation.DenotesMembers.proper
    {part : Part}
    {d : Derivation part}
    (h : d.DenotesMembers members)
    (hnames : ∀ name, .name name ∈ d.tokens → name.toList ∈ Name) :
    members ≠ [] ∧ ∀ member ∈ members, member.Proper := by
  induction h with
  | primitive p => exact ⟨by simp, by simpa using .primitive p⟩
  | named _ hd => exact ⟨by simp, by simpa using .named (hnames _ (by simp [tokens])) hd⟩
  | group _ ih =>
      obtain ⟨hne, hm⟩ := ih fun n hn => hnames n (by simp [tokens, hn])
      exact ⟨by simp, by simpa using proper_ofMembers hne hm⟩
  | array _ ih =>
      obtain ⟨hne, hm⟩ := ih fun n hn => hnames n (by simp [tokens, hn])
      exact ⟨by simp, by simpa using .array (proper_ofMembers hne hm)⟩
  | map _ ih =>
      obtain ⟨hne, hm⟩ := ih fun n hn => hnames n (by simp [tokens, hn])
      exact ⟨by simp, by simpa using .map (proper_ofMembers hne hm)⟩
  | mapPair _ _ _ ih =>
      obtain ⟨hne, hm⟩ := ih fun n hn => hnames n (by simp [tokens, hn])
      exact ⟨by simp, by simpa using .map (proper_ofMembers hne hm)⟩
  | plain _ ih => exact ih hnames
  | suffixed _ ih =>
      obtain ⟨-, hm⟩ := ih fun n hn => hnames n (by simp [tokens, hn])
      exact ⟨by simp, by simpa using .array (hm _ (by simp))⟩
  | member _ ih => exact ih hnames
  | alternative _ _ ihu ihp =>
      obtain ⟨-, hu⟩ := ihu fun n hn => hnames n (by simp [tokens, hn])
      obtain ⟨-, hp⟩ := ihp fun n hn => hnames n (by simp [tokens, hn])
      refine ⟨by simp, fun m hm => ?_⟩
      rcases List.mem_append.1 hm with hm | hm
      · exact hu m hm
      · exact hp m hm

/-- Every reference that is read from a compact text is proper. -/
theorem proper_of_parse
    {text : String}
    (h : parse text = .ok r) :
    r.Proper := by
  obtain ⟨u, hsplits, refs, hrefs, rfl⟩ := parse_eq_ok_iff.1 h
  obtain ⟨hne, hm⟩ := hrefs.proper fun name hn => hsplits.mem_name hn
  exact proper_ofMembers hne hm

end Compact

section Objects

variable {fields inner : Json.Fields} {element : Json} {kind : CollectionKind} {r : TypeRef}

/-- An object is a collection where it is neither a primitive nor a named type. -/
theorem decodeObject_collection
    (hp : fields.lookup "primitive" = none)
    (hf : fields.lookup "fqn" = none)
    (hc : fields.lookup "collection" = some (.object inner))
    (hk : CollectionKind.ofJson? (Json.Fields.get inner "kind") = some kind)
    (he : inner.lookup "elementtype" = some element)
    (h : decode element = .ok r) :
    decodeObject fields = .ok (ofCollection kind r) := by
  rw [decodeObject, hp, hf]
  simp only
  split
  · rename_i heq
    rw [hc] at heq
    cases heq
    simp only [hk]
    split
    · rename_i heq
      rw [he] at heq
      cases heq
    · rename_i heq
      rw [he] at heq
      cases heq
      rw [h]
      rfl
  · rename_i hne heq
    rw [hc] at heq
    cases heq
    exact absurd rfl (hne inner)
  · rename_i heq
    rw [hc] at heq
    cases heq

/-- An object is a union where it is nothing else. -/
theorem decodeObject_union
    {first second : Json}
    {rest : List Json}
    {refs : List TypeRef}
    (hp : fields.lookup "primitive" = none)
    (hf : fields.lookup "fqn" = none)
    (hc : fields.lookup "collection" = none)
    (hu : fields.lookup "union" = some (.object inner))
    (hm : inner.lookup "types" = some (.array (first :: second :: rest)))
    (h : decodeAll (first :: second :: rest) = .ok refs) :
    decodeObject fields = .ok (.union refs) := by
  rw [decodeObject, hp, hf]
  simp only
  split
  · rename_i heq
    rw [hc] at heq
    cases heq
  · rename_i heq
    rw [hc] at heq
    cases heq
  · split
    · rename_i heq
      rw [hu] at heq
      cases heq
      split
      · rename_i heq
        rw [hm] at heq
        cases heq
        rw [h]
        rfl
      · rename_i hne
        exact absurd hm (hne _ _ _)
    · rename_i hne heq
      rw [hu] at heq
      cases heq
      exact absurd rfl (hne inner)
    · rename_i heq
      rw [hu] at heq
      cases heq

theorem decodeAll_eq_mapM
    (values : List Json) :
    decodeAll values = values.mapM decode := by
  induction values with
  | nil => rw [decodeAll, List.mapM_nil]
  | cons value rest ih => rw [decodeAll, ih, List.mapM_cons]

end Objects

section Structured

/-- The name of a kind of collections. -/
def CollectionKind.name : CollectionKind → String
  | .array => "array"
  | .map => "map"

/-- The structured spelling of a collection. -/
def structuredCollection (kind : CollectionKind) (element : Json) : Json :=
  .object [("collection", .object [("kind", .string kind.name), ("elementtype", element)])]

/-- The structured spelling of a union. -/
def structuredUnion (members : List Json) : Json :=
  .object [("union", .object [("types", .array members)])]

mutual

/-- The structured spelling of a reference, with an object for every reference in it. -/
def structured : TypeRef → Json
  | .primitive p => .object [("primitive", .string p.name)]
  | .named fqn => .object [("fqn", .string fqn)]
  | .array element => structuredCollection .array (structured element)
  | .map element => structuredCollection .map (structured element)
  | .union members => structuredUnion (structuredAll members)

/-- The structured spellings of several references. -/
def structuredAll : List TypeRef → List Json
  | [] => []
  | r :: rest => structured r :: structuredAll rest

end

/-- `Spelled value r read`: the value spells `r`, with an object for a reference or with a compact
text, and `read` is `r` with the parts that are compact flattened. -/
inductive Spelled : Json → TypeRef → TypeRef → Prop
  | compact {r : TypeRef} :
      r.Proper →
      Spelled (.string r.text) r r.flatten
  | primitive (p : Primitive) :
      Spelled (.object [("primitive", .string p.name)]) (.primitive p) (.primitive p)
  | named {fqn : String} :
      fqn ≠ "" →
      Spelled (.object [("fqn", .string fqn)]) (.named fqn) (.named fqn)
  | collection {kind : CollectionKind} {fields : Json.Fields} {value : Json} {r read : TypeRef} :
      fields.Perm [("kind", .string kind.name), ("elementtype", value)] →
      Spelled value r read →
      Spelled (.object [("collection", .object fields)]) (ofCollection kind r)
        (ofCollection kind read)
  | union {parts : List (Json × TypeRef × TypeRef)} :
      2 ≤ parts.length →
      (∀ part ∈ parts, Spelled part.1 part.2.1 part.2.2) →
      Spelled (structuredUnion (parts.map fun part => part.1))
        (.union (parts.map fun part => part.2.1)) (.union (parts.map fun part => part.2.2))

/-- A structured spelling with compact parts is read with those parts flattened. -/
theorem Spelled.decode
    {value : Json}
    {r read : TypeRef}
    (h : Spelled value r read) :
    TypeRef.decode value = .ok read := by
  induction h with
  | compact hr =>
      rw [TypeRef.decode]
      exact hr.parse_text
  | primitive p =>
      rw [TypeRef.decode, decodeObject]
      simp [Json.string?, Primitive.ofName?_eq_some_iff.2 rfl]
  | @named fqn hne =>
      have hfield : List.lookup "primitive" [("fqn", Json.string fqn)] = none := rfl
      rw [TypeRef.decode, decodeObject, hfield]
      simp [Json.name?, hne]
  | @collection kind fields value r read hfields _ ih =>
      have hkind : CollectionKind.ofJson? (Json.Fields.get fields "kind") = some kind := by
        rcases List.perm_pair.1 hfields with rfl | rfl <;> cases kind <;> rfl
      have helement : fields.lookup "elementtype" = some value := by
        rcases List.perm_pair.1 hfields with rfl | rfl <;> rfl
      rw [TypeRef.decode]
      exact decodeObject_collection rfl rfl rfl hkind helement ih
  | @union parts hlength _ ih =>
      have hall : decodeAll (parts.map fun part => part.1) =
          .ok (parts.map fun part => part.2.2) := by
        rw [decodeAll_eq_mapM, mapM_eq_ok_iff, List.forall₂_map_left_iff, List.forall₂_map_right_iff]
        exact List.forall₂_same.2 ih
      obtain _ | ⟨first, _ | ⟨second, rest⟩⟩ := parts
      · simp at hlength
      · simp at hlength
      · rw [structuredUnion, TypeRef.decode]
        exact decodeObject_union rfl rfl rfl rfl rfl hall

theorem structuredAll_eq_map
    (members : List TypeRef) :
    structuredAll members = members.map structured := by
  induction members with
  | nil => rfl
  | cons member rest ih => rw [structuredAll, ih, List.map_cons]

theorem ne_empty_of_mem
    {name : String}
    {c : Char}
    (h : c ∈ name.toList) :
    name ≠ "" := by
  rintro rfl
  simp at h

/-- The structured spelling of a reference has no compact part. -/
theorem Proper.spelled
    {r : TypeRef}
    (h : r.Proper) :
    Spelled r.structured r r := by
  induction h with
  | primitive p => exact .primitive p
  | named _ hd => exact .named (ne_empty_of_mem hd)
  | array _ ih => exact @Spelled.collection .array _ _ _ _ (List.Perm.refl _) ih
  | map _ ih => exact @Spelled.collection .map _ _ _ _ (List.Perm.refl _) ih
  | @union members hlength _ ih =>
      have hunion := @Spelled.union (members.map fun m => (m.structured, m, m))
        (by simpa using hlength) (by simpa using ih)
      simpa [structured, structuredAll_eq_map, Function.comp_def] using hunion

/-- The spellings of a reference agree.  A compact spelling is read with every union inside a union put
in place, so it is read as it is when the reference is flat, and the reading has the same spelling and
mentions the same types.  A structured spelling is read as it is, but for its compact parts, which are
flattened.  Every reference that is read from a compact text is such a reference. -/
theorem spelling_round_trip
    (r : TypeRef)
    (h : r.Proper ∨ ∃ source, parse source = .ok r) :
    parse r.text = .ok r.flatten ∧
      (r.Flat → parse r.text = .ok r) ∧
      r.flatten.Flat ∧
      (∀ read, parse r.text = .ok read → read.text = r.text ∧ read.mentioned = r.mentioned) ∧
      decode r.structured = .ok r ∧
      ∀ value read, Spelled value r read → decode value = .ok read := by
  have hr : r.Proper := h.elim id fun ⟨_, hsource⟩ => proper_of_parse hsource
  refine ⟨hr.parse_text, ?_, flat_flatten r, ?_, hr.spelled.decode, fun _ _ => Spelled.decode⟩
  · intro hflat
    rw [hr.parse_text, flatten_of_flat hflat]
  · intro read hread
    rw [hr.parse_text] at hread
    cases hread
    exact ⟨hr.text_flatten, mentioned_flatten r⟩

theorem spelling_round_trip_nested :
    parse "string | Array<number> | Map<string, a.B>" =
        .ok (.union [.primitive .string, .array (.primitive .number), .map (.named "a.B")]) ∧
      decode (structured (.union [.union [.primitive .string, .array (.primitive .number)],
        .map (.named "a.B")])) =
        .ok (.union [.union [.primitive .string, .array (.primitive .number)],
          .map (.named "a.B")]) := by
  have hnamed : (TypeRef.named "a.B").Proper :=
    .named (mem_name_of_nameLength (by decide)) (by decide)
  have hinner : (TypeRef.union [.primitive .string, .array (.primitive .number)]).Proper :=
    .union (by decide) (by simpa using ⟨.primitive .string, .array (.primitive .number)⟩)
  have hproper : (TypeRef.union [.union [.primitive .string, .array (.primitive .number)],
      .map (.named "a.B")]).Proper :=
    .union (by decide) (by simpa using ⟨hinner, .map hnamed⟩)
  have h := spelling_round_trip _ (Or.inl hproper)
  refine ⟨?_, h.2.2.2.2.1⟩
  simpa [text, texts, Primitive.name, String.intercalate_cons_cons, flatten, flattenMembers, spread]
    using h.1

end Structured

end TypeRef
end TypeGraph
