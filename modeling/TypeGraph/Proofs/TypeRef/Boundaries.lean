import TypeGraph.Proofs.TypeRef.Splitting

/-!
# Where texts are put together and cut

Two texts that split by themselves split together, into the tokens of the one and then those of the
other, unless a name at the end of the first meets a name at the front of the second.  Conversely a text
that splits can be cut anywhere but inside a name, and both parts split by themselves.

**Results.**
* `Splits.join`: texts that are put together.
* `Splits.cut`: a text that is cut.
-/

namespace TypeGraph
namespace TypeRef

/-- A text of white space. -/
def Blank (w : List Char) : Prop :=
  ∀ c ∈ w, isBlank c = true

/-- Two tokens that may stand next to each other without white space: one of them is no name. -/
def Token.Apart (t t' : Token) : Prop :=
  ¬ ∃ name name', t = .name name ∧ t' = .name name'

/-- A place in a text that has characters of one name on both sides. -/
def InsideName (before after : List Char) : Prop :=
  ∃ ts w v rest, w ≠ [] ∧ v ≠ [] ∧ after = v ++ rest ∧ LongestName (w ++ v) rest ∧
    Splits (before ++ after) ts (w ++ v ++ rest)

section Joining

variable {text more w rest : List Char} {ts us : List Token}

/-- White space is in no name. -/
theorem isNamePart_of_isBlank
    {c : Char}
    (h : isBlank c = true) :
    isNamePart c = false := by
  rw [Bool.eq_false_iff]
  intro hpart
  rw [isBlank_of_isNamePart hpart] at h
  cases h

/-- A blank at the front of a text that splits may be left out. -/
theorem Splits.of_blank
    {c : Char}
    (h : Splits (c :: text) ts [])
    (hc : isBlank c = true) :
    Splits text ts [] := by
  generalize hall : c :: text = all at h
  cases h with
  | done => cases hall
  | blank _ hrest =>
      cases hall
      exact hrest
  | mark hmark _ =>
      cases hall
      rw [(isBlank_of_markToken? hmark).1] at hc
      cases hc
  | @name w text _ _ hname _ =>
      have hmem : c ∈ w := by
        cases w with
        | nil => exact absurd rfl (longestName_iff.1 hname).1
        | cons d w =>
            cases hall
            exact List.mem_cons_self
      have hpart := isNamePart_of_mem_name hname.1 c hmem
      rw [isNamePart_of_isBlank hc] at hpart
      cases hpart

/-- White space at the front of a text makes no difference to how it splits. -/
theorem Blank.splits_iff
    (hw : Blank w) :
    Splits (w ++ text) ts [] ↔ Splits text ts [] := by
  induction w with
  | nil => exact Iff.rfl
  | cons c w ih =>
      obtain ⟨hc, hw⟩ := List.forall_mem_cons.1 hw
      exact ⟨fun h => (ih hw).1 (h.of_blank hc), fun h => .blank hc ((ih hw).2 h)⟩

/-- A text whose last token is no name has a character that no name has. -/
theorem Splits.exists_not_isNamePart
    (h : Splits text ts [])
    (hne : ts ≠ [])
    (hlast : ∀ name, ts.getLast? ≠ some (.name name)) :
    ∃ c ∈ text, isNamePart c = false := by
  generalize he : ([] : List Char) = rest at h
  induction h with
  | done => exact absurd rfl hne
  | blank _ _ ih =>
      obtain ⟨c, hc, hpart⟩ := ih hne hlast he
      exact ⟨c, List.mem_cons_of_mem _ hc, hpart⟩
  | mark hc _ _ => exact ⟨_, List.mem_cons_self, (isBlank_of_markToken? hc).2⟩
  | @name w text rest ts _ _ ih =>
      cases ts with
      | nil => exact absurd rfl (hlast (String.ofList w))
      | cons t ts =>
          obtain ⟨c, hc, hpart⟩ := ih (by simp) (by simpa using hlast) he
          exact ⟨c, List.mem_append_right _ hc, hpart⟩

/-- A longest name stays the longest before a character that no name has. -/
theorem LongestName.append_of_mem
    (h : LongestName w text)
    (hc : ∃ c ∈ text, isNamePart c = false) :
    LongestName w (text ++ more) := by
  refine h.append_of_le fun w' hw' hprefix => ?_
  by_contra hlength
  -- a name beyond `text` would have all its characters
  obtain ⟨c, hc, hpart⟩ := hc
  have hwhole : w ++ text <+: w' :=
    List.prefix_of_prefix_length_le (List.prefix_append _ _) hprefix (by omega)
  rw [isNamePart_of_mem_name hw' c (hwhole.subset (List.mem_append_right _ hc))] at hpart
  cases hpart

/-- After a mark a text goes on with anything. -/
theorem Splits.append_of_mark
    (h : Splits text ts [])
    (hlast : ∀ name, ts.getLast? ≠ some (.name name))
    (more : List Char) :
    Splits (text ++ more) ts more := by
  generalize he : ([] : List Char) = rest at h
  induction h with
  | done => subst he; exact .done more
  | blank hc _ ih => exact .blank hc (ih hlast he)
  | @mark c t text rest ts hc _ ih =>
      refine .mark hc (ih ?_ he)
      cases ts with
      | nil => simp
      | cons u ts => simpa using hlast
  | @name w text rest ts hw hs ih =>
      cases ts with
      | nil => exact absurd rfl (hlast (String.ofList w))
      | cons u ts =>
          have hlast' : ∀ name, (u :: ts).getLast? ≠ some (.name name) := by simpa using hlast
          subst he
          rw [List.append_assoc]
          exact .name (hw.append_of_mem (hs.exists_not_isNamePart (by simp) hlast')) (ih hlast' rfl)

/-- A text that starts with no name ends the name before it. -/
theorem Splits.ends
    (h : Splits text ts [])
    (hfirst : ∀ name, ts.head? ≠ some (.name name)) :
    Ends text := by
  cases h with
  | done => simp [Ends]
  | blank hc _ =>
      refine fun d hd => ?_
      cases hd
      exact isNamePart_of_isBlank hc
  | mark hc _ =>
      refine fun d hd => ?_
      cases hd
      exact (isBlank_of_markToken? hc).2
  | name => exact absurd rfl (hfirst _)

/-- Texts split together as they do alone, where no two names meet. -/
theorem Splits.join
    (h : Splits text ts [])
    (h' : Splits more us [])
    (hapart : ∀ t ∈ ts.getLast?, ∀ u ∈ us.head?, t.Apart u) :
    Splits (text ++ more) (ts ++ us) [] := by
  by_cases hlast : ∃ name, ts.getLast? = some (.name name)
  · obtain ⟨name, hname⟩ := hlast
    have hfirst : ∀ name', us.head? ≠ some (.name name') := fun name' hname' =>
      hapart _ hname _ hname' ⟨name, name', rfl, rfl⟩
    have hs := h.append (h'.ends hfirst)
    exact hs.trans h'
  · exact (h.append_of_mark (fun name hname => hlast ⟨name, hname⟩) more).trans h'

end Joining

section Cutting

variable {text rest before after : List Char} {ts : List Token}

/-- A longest name is the longest before less text. -/
theorem LongestName.of_append
    {w more : List Char}
    (h : LongestName w (text ++ more)) :
    LongestName w text :=
  ⟨h.1, fun w' hw' hprefix =>
    h.2 w' hw' (by rw [← List.append_assoc]; exact hprefix.trans (List.prefix_append _ _))⟩

/-- A place inside a name stays one behind text that splits. -/
theorem InsideName.append_left
    (first : List Char)
    (h : InsideName before after)
    (hfirst : Splits (first ++ (before ++ after)) ts (before ++ after)) :
    InsideName (first ++ before) after := by
  obtain ⟨us, w, v, rest, hw, hv, ha, hname, hs⟩ := h
  refine ⟨ts ++ us, w, v, rest, hw, hv, ha, hname, ?_⟩
  rw [List.append_assoc]
  exact hfirst.trans hs

/-- A text that splits is cut anywhere but inside a name, and both parts split by themselves. -/
theorem Splits.cut
    (h : Splits (before ++ after) ts []) :
    (∃ us vs, ts = us ++ vs ∧ Splits before us [] ∧ Splits after vs []) ∨
      InsideName before after := by
  generalize hall : before ++ after = text at h
  generalize he : ([] : List Char) = rest at h
  induction h generalizing before with
  | done =>
      subst he
      obtain ⟨rfl, rfl⟩ := List.append_eq_nil_iff.1 hall
      exact Or.inl ⟨[], [], rfl, .done [], .done []⟩
  | @blank c text rest ts hc hs ih =>
      subst he
      cases before with
      | nil =>
          obtain rfl : after = c :: text := hall
          exact Or.inl ⟨[], ts, rfl, .done [], .blank hc hs⟩
      | cons d before =>
          obtain ⟨rfl, htail⟩ := List.cons.inj hall
          rcases ih htail rfl with ⟨us, vs, rfl, hus, hvs⟩ | hinside
          · exact Or.inl ⟨us, vs, rfl, .blank hc hus, hvs⟩
          · exact Or.inr (InsideName.append_left [d] hinside (.blank hc (.done _)))
  | @mark c t text rest ts hc hs ih =>
      subst he
      cases before with
      | nil =>
          obtain rfl : after = c :: text := hall
          exact Or.inl ⟨[], t :: ts, rfl, .done [], .mark hc hs⟩
      | cons d before =>
          obtain ⟨rfl, htail⟩ := List.cons.inj hall
          rcases ih htail rfl with ⟨us, vs, rfl, hus, hvs⟩ | hinside
          · exact Or.inl ⟨t :: us, vs, rfl, .mark hc hus, hvs⟩
          · exact Or.inr (InsideName.append_left [d] hinside (.mark hc (.done _)))
  | @name w text rest ts hw hs ih =>
      subst he
      have hcases : (∃ v, v ≠ [] ∧ w = before ++ v ∧ after = v ++ text) ∨
          ∃ before', before = w ++ before' ∧ before' ++ after = text := by
        rcases List.append_eq_append_iff.1 hall with ⟨v, hv, ha⟩ | ⟨before', hb, ht⟩
        · by_cases hne : v = []
          · subst hne
            exact Or.inr ⟨[], by simpa using hv.symm, by simpa using ha⟩
          · exact Or.inl ⟨v, hne, hv, ha⟩
        · exact Or.inr ⟨before', hb, ht.symm⟩
      rcases hcases with ⟨v, hv, rfl, rfl⟩ | ⟨before', rfl, rfl⟩
      · -- the name reaches beyond the cut by `v`
        by_cases hb : before = []
        · subst hb
          exact Or.inl ⟨[], _, rfl, .done [], .name hw hs⟩
        · refine Or.inr ⟨[], before, v, text, hb, hv, rfl, hw, ?_⟩
          rw [List.append_assoc]
          exact .done _
      · rcases ih rfl rfl with ⟨us, vs, rfl, hus, hvs⟩ | hinside
        · exact Or.inl ⟨_ :: us, vs, rfl, .name hw.of_append hus, hvs⟩
        · exact Or.inr (InsideName.append_left w hinside (.name hw (.done _)))

end Cutting

end TypeRef
end TypeGraph
