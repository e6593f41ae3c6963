import Mathlib.Data.List.TakeWhile
import TypeGraph.Proofs.Manifest.TypeEntries

/-!
# Short names

A full name is the name of the assembly, a dot and a local part.  Where an entry does not say otherwise,
the short name is what follows the last dot of the local part and the namespace what stands before that
dot, so the full name is put together from these again.  The short name is empty for exactly one shape of
entries: those without a name whose full name ends in a dot.

**Results.**
* `exists_lastDot`, `splitLastDot_append`, `splitLastDot_of_not_mem`: splitting a text at its last dot.
* `Manifest.short_names_sound`: the entries of a document and the names of the types read from them.
* `Manifest.short_name_of_dot_empty`: a type whose short name is empty.
-/

namespace TypeGraph

open Json (Holds)

section LastDot

variable {text before last : List Char}

/-- A text without a dot is not split. -/
theorem splitLastDot_of_not_mem
    (h : '.' ∉ text) :
    splitLastDot text = (none, text) := by
  have hall : text.reverse.takeWhile (· != '.') = text.reverse := by
    rw [List.takeWhile_eq_self_iff]
    intro c hc
    have hne : c ≠ '.' := by
      rintro rfl
      exact h (List.mem_reverse.1 hc)
    simpa using hne
  simp [splitLastDot, hall]

/-- A text is split at the dot that no other one follows. -/
theorem splitLastDot_append
    (h : '.' ∉ last) :
    splitLastDot (before ++ '.' :: last) = (some before, last) := by
  have hlast : (before ++ '.' :: last).reverse.takeWhile (· != '.') = last.reverse := by
    rw [List.reverse_append, List.reverse_cons, List.append_assoc,
      List.takeWhile_append_of_pos]
    · simp
    · intro c hc
      have hne : c ≠ '.' := by
        rintro rfl
        exact h (List.mem_reverse.1 hc)
      simpa using hne
  have hlength : last.length ≠ (before ++ '.' :: last).length := by
    simp
    omega
  have htake : (before ++ '.' :: last).length - last.length - 1 = before.length := by
    simp
    omega
  simp only [splitLastDot, hlast, List.reverse_reverse]
  rw [if_neg hlength, htake, List.take_left]

/-- A text with a dot has a last one. -/
theorem exists_lastDot
    (h : '.' ∈ text) :
    ∃ before last, text = before ++ '.' :: last ∧ '.' ∉ last := by
  obtain ⟨last, before, hreverse, hlast⟩ := List.eq_append_cons_of_mem (List.mem_reverse.2 h)
  refine ⟨before.reverse, last.reverse, ?_, by simpa using hlast⟩
  have htext := congrArg List.reverse hreverse
  simpa using htext

end LastDot

/-- The namespace in front of a short name, with the dot between them. -/
def scopeText : Option String → String
  | none => ""
  | some scope => scope ++ "."

/-- The last part of a text has no dot, and the parts make up the text. -/
theorem splitLastDot_spec
    (text : List Char) :
    '.' ∉ (splitLastDot text).2 ∧
      text = (scopeText ((splitLastDot text).1.map String.ofList)).toList ++ (splitLastDot text).2 := by
  by_cases hdot : '.' ∈ text
  · obtain ⟨before, last, rfl, hlast⟩ := exists_lastDot hdot
    simp [splitLastDot_append hlast, hlast, scopeText]
  · simp [splitLastDot_of_not_mem hdot, hdot, scopeText]

/-- A text that goes on after a dot ends in one where what goes on is empty or ends in one. -/
theorem exists_endsInDot_iff
    (first : List Char)
    {last : List Char} :
    (∃ rest, first ++ '.' :: last = rest ++ ['.']) ↔
      last = [] ∨ ∃ before, last = before ++ ['.'] := by
  constructor
  · rintro ⟨rest, h⟩
    rcases List.eq_nil_or_concat' last with rfl | ⟨last', c, rfl⟩
    · exact Or.inl rfl
    · have he : (first ++ '.' :: last') ++ [c] = rest ++ ['.'] := by simpa using h
      exact Or.inr ⟨last', by rw [(List.append_inj' he rfl).2]⟩
  · rintro (rfl | ⟨before, rfl⟩)
    · exact ⟨first, rfl⟩
    · exact ⟨first ++ '.' :: before, by simp⟩

/-- Nothing follows the last dot exactly where the text is empty or ends in a dot. -/
theorem splitLastDot_snd_eq_nil_iff
    {text : List Char} :
    (splitLastDot text).2 = [] ↔ text = [] ∨ ∃ before, text = before ++ ['.'] := by
  by_cases hdot : '.' ∈ text
  · obtain ⟨before, last, rfl, hlast⟩ := exists_lastDot hdot
    have hnone : ¬ ∃ before, last = before ++ ['.'] := by
      rintro ⟨before, rfl⟩
      simp at hlast
    simp [splitLastDot_append hlast, exists_endsInDot_iff, hnone]
  · have hnone : ¬ ∃ before, text = before ++ ['.'] := by
      rintro ⟨before, rfl⟩
      simp at hdot
    simp [splitLastDot_of_not_mem hdot, hnone]

/-- The short name of a type is empty for one shape of entries only: an entry without a name under a full
name that ends in a dot.  Where the entry gives neither name nor namespace, the short name has no dot,
and the full name is put together from the name of the assembly, the namespace and the short name. -/
structure ShortNameSound (entry : Json.Fields) (t : TypeDef) : Prop where
  empty_iff : t.name = "" ↔ entry.get "name" = .null ∧ ∃ rest, t.fqn = rest ++ "."
  undotted : entry.get "name" = .null → '.' ∉ t.name.toList
  joined : entry.get "name" = .null → entry.get "namespace" = .null →
    t.fqn = t.assembly ++ "." ++ scopeText t.scope ++ t.name

theorem TypeDef.ReadFrom.shortNameSound
    {entry : Json.Fields}
    {t : TypeDef}
    (h : TypeDef.ReadFrom entry t) :
    ShortNameSound entry t := by
  obtain ⟨localPart, hfqn, hname, hscope⟩ := decodeNames_eq_ok h.names
  obtain ⟨hdot, hparts⟩ := splitLastDot_spec localPart
  have hends : (∃ rest, t.fqn = rest ++ ".") ↔ (splitLastDot localPart).2 = [] := by
    rw [splitLastDot_snd_eq_nil_iff, ← exists_endsInDot_iff t.assembly.toList, ← hfqn]
    constructor
    · rintro ⟨rest, hrest⟩
      exact ⟨rest.toList, by simp [hrest]⟩
    · rintro ⟨rest, hrest⟩
      exact ⟨String.ofList rest, String.toList_inj.1 (by simp [hrest])⟩
  rcases hname with ⟨hnull, hname⟩ | ⟨hgiven, hne⟩
  · refine ⟨?_, fun _ => ?_, fun _ hnone => ?_⟩
    · rw [hends, hname]
      simp [hnull]
    · rw [hname, String.toList_ofList]
      exact hdot
    · refine String.toList_inj.1 ?_
      rw [hfqn, hscope hnone, hname]
      conv_lhs => rw [hparts]
      simp
  · exact ⟨by simp [hne, hgiven], by simp [hgiven], by simp [hgiven]⟩

/-- Every type of a manifest that was read belongs to the assembly, stands under the full name of its
entry, and has a sound short name. -/
theorem Manifest.short_names_sound
    {source : Source}
    {m : Manifest}
    (h : decode source = .ok m) :
    ∃ (fields : Json.Fields) (found : List (String × Json)),
      source.document = .ok (.object fields) ∧
      TypeEntries (fields.get "types") found ∧
      List.Forall₂ (fun entry t => t.assembly = m.name ∧ t.fqn = entry.1 ∧
        Holds ShortNameSound entry.2 t) found m.types := by
  obtain ⟨fields, found, hdocument, hfound, htypes⟩ := exists_entries h
  refine ⟨fields, found, hdocument, hfound, htypes.imp fun entry t ht => ?_⟩
  obtain ⟨hassembly, hfqn, inner, hinner, hread⟩ := TypeDef.decode_eq_ok_iff.1 ht
  exact ⟨hassembly, hfqn, inner, hinner, hread.shortNameSound⟩

/-- An entry of a list whose full name has two dots in a row. -/
def dottedEntry : Json :=
  .object [("fqn", .string "a.b.c..D"), ("kind", .string "enum")]

/-- The entry is read for an assembly with a dot in its name. -/
theorem Manifest.short_names_sound_of_dottedEntry :
    ∃ m t, decode (.value (.object [("name", .string "a.b"), ("version", .string "1"),
        ("types", .array [dottedEntry])])) = .ok m ∧
      m.types = [t] ∧ t.name ≠ "" ∧ '.' ∉ t.name.toList ∧
      t.fqn = "a.b" ++ "." ++ scopeText t.scope ++ t.name := by
  have hdecode : decode (.value (.object [("name", .string "a.b"), ("version", .string "1"),
      ("types", .array [dottedEntry])])) =
      .ok ⟨"a.b", "1", [], [⟨"a.b.c..D", "a.b", "D", some "c.", .empty, .ofEnum []⟩],
        none, none, none, none⟩ := by
    rfl
  obtain ⟨fields, found, hdocument, hfound, htypes⟩ := short_names_sound hdecode
  cases hdocument
  have hfqns : ∀ entry ∈ [("a.b.c..D", dottedEntry)], HoldsFqn entry.2 entry.1 :=
    List.forall_mem_singleton.2 (holdsFqn_iff.2 rfl)
  obtain rfl := hfound.unique (.listed hfqns)
  obtain ⟨⟨-, -, hsound⟩, -⟩ := List.forall₂_cons.1 htypes
  have hsound := Json.holds_object.1 hsound
  refine ⟨_, _, hdecode, rfl, fun hempty => ?_, hsound.undotted rfl, hsound.joined rfl rfl⟩
  obtain ⟨rest, hrest⟩ := (hsound.empty_iff.1 hempty).2
  have hlast := congrArg (fun text => text.toList.getLast?) hrest
  simp at hlast

/-- An entry without a name under the name of the assembly and a dot is read as a type whose short name is
empty. -/
theorem Manifest.short_name_of_dot_empty :
    ∃ m t, decode (.value (.object [("name", .string "a"), ("version", .string "1"),
        ("types", .object [("a.", .object [("kind", .string "enum")])])])) = .ok m ∧
      m.types = [t] ∧ t.name = "" :=
  ⟨⟨"a", "1", [], [⟨"a.", "a", "", none, .empty, .ofEnum []⟩], none, none, none, none⟩, _,
    rfl, rfl, rfl⟩

end TypeGraph
