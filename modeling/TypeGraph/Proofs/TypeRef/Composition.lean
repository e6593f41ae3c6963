import Mathlib
import TypeGraph.Proofs.TypeRef.Boundaries
import TypeGraph.Proofs.TypeRef.RoundTrip

/-!
# Composing compact references

A larger reference is spelled by putting texts of smaller ones between brackets, commas and bars.  Its
pieces may stand apart by any white space: pieces that split by themselves split together, since no
derivation has two names next to each other.  So the larger text is read as the reference that is made of
the smaller ones, and white space anywhere between the tokens of a text makes no difference.

**Results.**
* `Derivation.isChain_tokens`: no derivation has two names next to each other.
* `Spaced.splits`: pieces that stand apart by white space split one after the other.
* `parse_of_spaced`: a text is read by its pieces.
* `compact_composition`: arrays, maps, groups and unions of references, and white space between tokens.
-/

namespace TypeGraph
namespace TypeRef

/-- A text that consists of some pieces in turn, with white space around them. -/
inductive Spaced : List String → List Char → Prop
  | done {w : List Char} :
      Blank w →
      Spaced [] w
  | piece {piece : String} {pieces : List String} {w text : List Char} :
      Blank w →
      Spaced pieces text →
      Spaced (piece :: pieces) (w ++ piece.toList ++ text)

/-- No derivation has two names next to each other. -/
theorem Derivation.isChain_tokens
    {part : Part}
    (d : Derivation part) :
    d.tokens.IsChain Token.Apart := by
  induction d with
  | member p ih => exact ih
  | alternative u p ihu ihp =>
      simp [tokens, List.isChain_append, List.isChain_cons, Token.Apart, ihu, ihp]
  | plain a ih => exact ih
  | suffixed p ih =>
      simp [tokens, List.isChain_append, List.isChain_cons, Token.Apart, ih]
  | generic head u ih =>
      simp [tokens, List.isChain_append, List.isChain_cons, Token.Apart, ih]
  | genericPair head u v ihu ihv =>
      simp [tokens, List.isChain_append, List.isChain_cons, Token.Apart, ihu, ihv]
  | named name => simp [tokens]
  | group u ih =>
      simp [tokens, List.isChain_append, List.isChain_cons, Token.Apart, ih]

section Pieces

variable {pieces : List String} {text : List Char} {tss : List (List Token)}

/-- Pieces that stand apart by white space split one after the other. -/
theorem Spaced.splits
    (h : Spaced pieces text)
    (hpieces : List.Forall₂ (fun piece ts => Splits piece.toList ts []) pieces tss)
    (hapart : tss.flatten.IsChain Token.Apart) :
    Splits text tss.flatten [] := by
  induction h generalizing tss with
  | done hw =>
      cases hpieces
      simpa using hw.splits_iff.2 (.done [])
  | piece hw _ ih =>
      cases hpieces with
      | cons hpiece hrest =>
          rw [List.flatten_cons, List.isChain_append] at hapart
          obtain ⟨-, hchain, hmeet⟩ := hapart
          rw [List.append_assoc, hw.splits_iff]
          exact hpiece.join (ih hrest hchain) hmeet

/-- A text is read by its pieces. -/
theorem parse_of_spaced
    {whole : String}
    (h : Spaced pieces whole.toList)
    (hpieces : List.Forall₂ (fun piece ts => Splits piece.toList ts []) pieces tss)
    {u : Derivation .union}
    (hu : u.tokens = tss.flatten)
    {r : TypeRef}
    (hr : u.Denotes r) :
    parse whole = .ok r := by
  have hs := h.splits hpieces (hu ▸ u.isChain_tokens)
  exact parse_eq_ok_iff.2 ⟨u, hu ▸ hs, hr⟩

end Pieces

section Spacing

variable {S : String} {r : TypeRef} {before w after : List Char}

/-- White space may be put in anywhere but inside a name. -/
theorem parse_insert_blank
    (h : parse S = .ok r)
    (hS : S.toList = before ++ after)
    (hplace : ¬ InsideName before after)
    (hw : Blank w) :
    parse (String.ofList (before ++ w ++ after)) = .ok r := by
  obtain ⟨u, hs, hr⟩ := parse_eq_ok_iff.1 h
  rw [hS] at hs
  obtain ⟨us, vs, hu, hus, hvs⟩ := hs.cut.resolve_right hplace
  have hchain := hu ▸ u.isChain_tokens
  have hjoined := hus.join (hw.splits_iff.2 hvs) (List.isChain_append.1 hchain).2.2
  refine parse_eq_ok_iff.2 ⟨u, ?_, hr⟩
  rwa [String.toList_ofList, hu, List.append_assoc]

/-- White space may be left out everywhere. -/
theorem parse_remove_blank
    (h : parse S = .ok r)
    (hS : S.toList = before ++ w ++ after)
    (hw : Blank w) :
    parse (String.ofList (before ++ after)) = .ok r := by
  obtain ⟨u, hs, hr⟩ := parse_eq_ok_iff.1 h
  refine parse_eq_ok_iff.2 ⟨u, ?_, hr⟩
  rw [String.toList_ofList]
  rw [hS, List.append_assoc] at hs
  by_cases hne : w = []
  · subst hne
    exact hs
  · have hplace : ¬ InsideName before (w ++ after) := by
      rintro ⟨ts, v, v', rest, -, hv', ha, hname, -⟩
      obtain ⟨c, v', rfl⟩ := List.exists_cons_of_ne_nil hv'
      obtain ⟨d, w, rfl⟩ := List.exists_cons_of_ne_nil hne
      obtain ⟨rfl, -⟩ := List.cons.inj ha
      have hpart := isNamePart_of_mem_name hname.1 d (by simp)
      rw [isNamePart_of_isBlank (hw d (by simp))] at hpart
      cases hpart
    obtain ⟨us, vs, hu, hus, hvs⟩ := hs.cut.resolve_right hplace
    have hchain := hu ▸ u.isChain_tokens
    rw [hu]
    exact hus.join (hw.splits_iff.1 hvs) (List.isChain_append.1 hchain).2.2

end Spacing

/-- Let two texts be read as `s` and `t`.  With white space wherever the pieces meet,
* the first one as the argument of `Array`, or in parentheses with a suffix, is read as the array of `s`;
* in parentheses it is read as `s`;
* as the argument of `Map`, alone or after `string`, it is read as the map of `s`;
* in parentheses before a bar and the second one in parentheses, it is read as the union with the two
  members `s` and `t`.

White space that is put into the first text, anywhere but inside a name, or left out of it makes no
difference. -/
theorem compact_composition
    {S T : String}
    {s t : TypeRef}
    (hS : parse S = .ok s)
    (hT : parse T = .ok t) :
    (∀ text : String,
      (Spaced ["Array", "<", S, ">"] text.toList → parse text = .ok (.array s)) ∧
      (Spaced ["(", S, ")", "[", "]"] text.toList → parse text = .ok (.array s)) ∧
      (Spaced ["(", S, ")"] text.toList → parse text = .ok s) ∧
      (Spaced ["Map", "<", S, ">"] text.toList → parse text = .ok (.map s)) ∧
      (Spaced ["Map", "<", "string", ",", S, ">"] text.toList → parse text = .ok (.map s)) ∧
      (Spaced ["(", S, ")", "|", "(", T, ")"] text.toList → parse text = .ok (.union [s, t]))) ∧
    ∀ before after : List Char,
      (S.toList = before ++ after → ¬ InsideName before after →
        ∀ w, Blank w → parse (String.ofList (before ++ w ++ after)) = .ok s) ∧
      ∀ w, Blank w → S.toList = before ++ w ++ after →
        parse (String.ofList (before ++ after)) = .ok s := by
  obtain ⟨u, hu, refs, hrefs, rfl⟩ := parse_eq_ok_iff.1 hS
  obtain ⟨v, hv, refs', hrefs', rfl⟩ := parse_eq_ok_iff.1 hT
  refine ⟨fun text => ⟨fun h => ?_, fun h => ?_, fun h => ?_, fun h => ?_, fun h => ?_, fun h => ?_⟩,
    fun before after => ⟨fun hplace hin w hw => parse_insert_blank hS hplace hin hw,
      fun w hw hplace => parse_remove_blank hS hplace hw⟩⟩
  · exact parse_of_spaced h
      (.cons (splits_name array_mem) <| .cons (splits_mark rfl) <| .cons hu <|
        .cons (splits_mark rfl) .nil)
      (u := .member (.plain (.generic "Array" u))) (by simp [Derivation.tokens])
      ⟨_, .member (.plain (.array hrefs)), rfl⟩
  · exact parse_of_spaced h
      (.cons (splits_mark rfl) <| .cons hu <| .cons (splits_mark rfl) <| .cons (splits_mark rfl) <|
        .cons (splits_mark rfl) .nil)
      (u := .member (.suffixed (.plain (.group u)))) (by simp [Derivation.tokens])
      ⟨_, .member (.suffixed (.plain (.group hrefs))), rfl⟩
  · exact parse_of_spaced h
      (.cons (splits_mark rfl) <| .cons hu <| .cons (splits_mark rfl) .nil)
      (u := .member (.plain (.group u))) (by simp [Derivation.tokens])
      ⟨_, .member (.plain (.group hrefs)), rfl⟩
  · exact parse_of_spaced h
      (.cons (splits_name map_mem) <| .cons (splits_mark rfl) <| .cons hu <|
        .cons (splits_mark rfl) .nil)
      (u := .member (.plain (.generic "Map" u))) (by simp [Derivation.tokens])
      ⟨_, .member (.plain (.map hrefs)), rfl⟩
  · have hkey : (Derivation.named "string").DenotesMembers [.primitive .string] := .primitive .string
    exact parse_of_spaced h
      (.cons (splits_name map_mem) <| .cons (splits_mark rfl) <|
        .cons (splits_name (name_mem .string)) <| .cons (splits_mark rfl) <| .cons hu <|
        .cons (splits_mark rfl) .nil)
      (u := .member (.plain (.genericPair "Map" (.member (.plain (.named "string"))) u)))
      (by simp [Derivation.tokens])
      ⟨_, .member (.plain (.mapPair (.member (.plain hkey)) hrefs)), rfl⟩
  · exact parse_of_spaced h
      (.cons (splits_mark rfl) <| .cons hu <| .cons (splits_mark rfl) <| .cons (splits_mark rfl) <|
        .cons (splits_mark rfl) <| .cons hv <| .cons (splits_mark rfl) .nil)
      (u := .alternative (.member (.plain (.group u))) (.plain (.group v)))
      (by simp [Derivation.tokens])
      ⟨_, .alternative (.member (.plain (.group hrefs))) (.plain (.group hrefs')), rfl⟩

/-- A union in parentheses before a bar and an array in parentheses, with blanks between some of the
pieces; and the union with the blanks around its own bar left out. -/
theorem compact_composition_of_union :
    parse "a.B | string" = .ok (.union [.named "a.B", .primitive .string]) ∧
      parse "number[]" = .ok (.array (.primitive .number)) ∧
      Spaced ["(", "a.B | string", ")", "|", "(", "number[]", ")"]
        "( a.B | string ) | (number[])".toList ∧
      parse "( a.B | string ) | (number[])" =
        .ok (.union [.union [.named "a.B", .primitive .string], .array (.primitive .number)]) ∧
      parse "a.B| string" = .ok (.union [.named "a.B", .primitive .string]) := by
  have hS : parse "a.B | string" = .ok (.union [.named "a.B", .primitive .string]) := by
    rfl
  have hT : parse "number[]" = .ok (.array (.primitive .number)) := by
    rfl
  have hnone : Blank [] := by simp [Blank]
  have hblank : Blank [' '] := by simp [Blank, isBlank]
  have hspaced : Spaced ["(", "a.B | string", ")", "|", "(", "number[]", ")"]
      "( a.B | string ) | (number[])".toList :=
    .piece hnone <| .piece hblank <| .piece hblank <| .piece hblank <| .piece hblank <|
      .piece hnone <| .piece hnone <| .done hnone
  obtain ⟨hforms, hspacing⟩ := compact_composition hS hT
  exact ⟨hS, hT, hspaced, (hforms _).2.2.2.2.2 hspaced,
    (hspacing "a.B".toList "| string".toList).2 [' '] hblank rfl⟩

end TypeRef
end TypeGraph
