import TypeGraph.Proofs.TypeRef.Name

/-!
# Splitting a text into tokens

How a text splits into tokens, stated without a reader: white space is skipped, a mark is a token by
itself, and a name is the longest name at the front of what is left.  The reader of tokens goes exactly
as far as a text splits.

**Results.**
* `Splits.append`, `Splits.trans`: a splitting goes on before other text, and splittings are put
  together.
* `tokens_iff`: the reader has the tokens of a text, and nothing stray, exactly when the text splits
  into them.
-/

namespace TypeGraph
namespace TypeRef

/-- A text splits into tokens, up to what is left of it. -/
inductive Splits : List Char → List Token → List Char → Prop
  | done (rest : List Char) :
      Splits rest [] rest
  | blank {c : Char} {text rest : List Char} {ts : List Token} :
      isBlank c = true →
      Splits text ts rest →
      Splits (c :: text) ts rest
  | mark {c : Char} {t : Token} {text rest : List Char} {ts : List Token} :
      markToken? c = some t →
      Splits text ts rest →
      Splits (c :: text) (t :: ts) rest
  | name {w text rest : List Char} {ts : List Token} :
      LongestName w text →
      Splits text ts rest →
      Splits (w ++ text) (.name (String.ofList w) :: ts) rest

/-- No name goes on into a text: it is empty or starts with a character that no name has. -/
def Ends (text : List Char) : Prop :=
  ∀ c ∈ text.head?, isNamePart c = false

section Splits

variable {text middle rest : List Char} {ts us : List Token}

/-- A longest name stays the longest where no name goes beyond the text after it. -/
theorem LongestName.append_of_le
    {w more : List Char}
    (h : LongestName w text)
    (hle : ∀ w' ∈ Name, w' <+: w ++ text ++ more → w'.length ≤ (w ++ text).length) :
    LongestName w (text ++ more) := by
  refine ⟨h.1, fun w' hw' hprefix => ?_⟩
  rw [← List.append_assoc] at hprefix
  have hwithin := List.prefix_of_prefix_length_le hprefix (List.prefix_append _ _)
    (hle w' hw' hprefix)
  exact h.2 w' hw' hwithin

/-- A longest name stays the longest where no name goes on. -/
theorem LongestName.append
    {w more : List Char}
    (h : LongestName w text)
    (he : Ends more) :
    LongestName w (text ++ more) := by
  refine h.append_of_le fun w' hw' hprefix => ?_
  by_contra hlength
  -- a name beyond `text` would have the first character of `more`
  obtain ⟨tail, rfl⟩ := List.prefix_of_prefix_length_le (List.prefix_append (w ++ text) more)
    hprefix (by omega)
  cases tail with
  | nil => simp at hlength
  | cons c tail =>
      have hc : isNamePart c = true := isNamePart_of_mem_name hw' c (by simp)
      rw [List.prefix_append_right_inj] at hprefix
      obtain ⟨more', rfl⟩ := hprefix
      rw [he c (by simp)] at hc
      cases hc

/-- A text splits before other text as it does alone, where no name goes on. -/
theorem Splits.append
    {more : List Char}
    (h : Splits text ts rest)
    (he : Ends more) :
    Splits (text ++ more) ts (rest ++ more) := by
  induction h with
  | done rest => exact .done (rest ++ more)
  | blank hc _ ih => exact .blank hc ih
  | mark hc _ ih => exact .mark hc ih
  | name hw _ ih =>
      rw [List.append_assoc]
      exact .name (hw.append he) ih

/-- One splitting goes on where another one stops. -/
theorem Splits.trans
    (h : Splits text ts middle)
    (h' : Splits middle us rest) :
    Splits text (ts ++ us) rest := by
  induction h with
  | done => exact h'
  | blank hc _ ih => exact .blank hc (ih h')
  | mark hc _ ih => exact .mark hc (ih h')
  | name hw _ ih => exact .name hw (ih h')

theorem markToken?_ne_name
    {c : Char}
    {name : String} :
    markToken? c ≠ some (.name name) := by
  unfold markToken?
  split_ifs <;> simp

/-- The names among the tokens of a text are names. -/
theorem Splits.mem_name
    (h : Splits text ts rest)
    {name : String}
    (hn : .name name ∈ ts) :
    name.toList ∈ Name := by
  induction h with
  | done => simp at hn
  | blank _ _ ih => exact ih hn
  | mark hc _ ih =>
      rcases List.mem_cons.1 hn with rfl | hn
      · exact absurd hc markToken?_ne_name
      · exact ih hn
  | name hw _ ih =>
      rcases List.mem_cons.1 hn with he | hn
      · cases he
        rw [String.toList_ofList]
        exact hw.1
      · exact ih hn

end Splits

section Scan

variable {found : List Placed} {column : Nat} {c : Char} {text rest : List Char} {ts : List Token}

theorem isBlank_of_isNamePart
    (h : isNamePart c = true) :
    isBlank c = false := by
  rw [Bool.eq_false_iff]
  intro hb
  simp only [isBlank, Bool.or_eq_true, beq_iff_eq] at hb
  rcases hb with (((rfl | rfl) | rfl) | rfl) | rfl <;> revert h <;> decide

/-- A mark is neither white space nor a character of a name. -/
theorem isBlank_of_markToken?
    {t : Token}
    (h : markToken? c = some t) :
    isBlank c = false ∧ isNamePart c = false := by
  unfold markToken? at h
  split_ifs at h <;> subst_vars <;> decide

theorem markToken?_of_isNamePart
    (h : isNamePart c = true) :
    markToken? c = none := by
  cases hm : markToken? c with
  | none => rfl
  | some t =>
      rw [(isBlank_of_markToken? hm).2] at h
      cases h

/-- What is skipped are the next characters, one column each. -/
theorem scan_skip
    (found : List Placed)
    {skip : Nat}
    (column : Nat)
    (text : List Char)
    (h : skip ≤ text.length) :
    scan found skip column text = scan found 0 (column + skip) (text.drop skip) := by
  induction skip generalizing column text with
  | zero => rfl
  | succ skip ih =>
      cases text with
      | nil => simp at h
      | cons c text =>
          rw [scan, ih (column + 1) text (by simpa using h), List.drop_succ_cons]
          congr 1
          omega

theorem scan_blank
    (h : isBlank c = true) :
    scan found 0 column (c :: text) =
      scan found 0 (if c = '\n' then 1 else column + 1) text := by
  rw [scan, if_pos h]

theorem scan_mark
    {t : Token}
    (h : markToken? c = some t) :
    scan found 0 column (c :: text) = scan (⟨t, column⟩ :: found) 0 (column + 1) text := by
  rw [scan, if_neg (by simp [(isBlank_of_markToken? h).1])]
  simp [tokenAt?, h]

theorem scan_name
    {w : List Char}
    (h : LongestName w text) :
    scan found 0 column (w ++ text) =
      scan (⟨.name (String.ofList w), column⟩ :: found) 0 (column + w.length) text := by
  obtain ⟨hne, hlength⟩ := longestName_iff.1 h
  cases w with
  | nil => exact absurd rfl hne
  | cons c w =>
      have hc : isNamePart c = true := isNamePart_of_mem_name h.1 c (by simp)
      have htoken : tokenAt? c (w ++ text) = some (.name (String.ofList (c :: w)), w.length) := by
        rw [List.cons_append] at hlength
        simp [tokenAt?, markToken?_of_isNamePart hc, hlength]
      rw [List.cons_append, scan, if_neg (by simp [isBlank_of_isNamePart hc]), htoken]
      simp only
      rw [scan_skip _ _ _ (by simp), List.drop_left, List.length_cons]
      congr 1
      omega

/-- Where the reader finds no token none starts. -/
theorem scan_stray
    (hb : isBlank c = false)
    (ht : tokenAt? c text = none) :
    scan found 0 column (c :: text) = (found.reverse, some column) := by
  rw [scan, if_neg (by simp [hb]), ht]

/-- A token at the front of a text is a mark or the longest name there. -/
theorem tokenAt?_cases
    {t : Token}
    {length : Nat}
    (h : tokenAt? c text = some (t, length)) :
    markToken? c = some t ∨
      ∃ w rest, c :: text = w ++ rest ∧ LongestName w rest := by
  unfold tokenAt? at h
  split at h
  · rename_i mark hmark
    cases h
    exact Or.inl hmark
  · simp only at h
    split at h
    · cases h
    · rename_i hpos
      refine Or.inr ⟨(c :: text).take (nameLength (c :: text)),
        (c :: text).drop (nameLength (c :: text)), (List.take_append_drop _ _).symm, ?_⟩
      refine longestName_iff.2 ⟨?_, ?_⟩
      · simp [hpos]
      · rw [List.take_append_drop, List.length_take, Nat.min_eq_left (nameLength_le_length _)]

/-- The reader goes as far as a text splits, and stops where no token starts. -/
theorem scan_splits
    (text : List Char)
    (found : List Placed)
    (column : Nat) :
    ∃ ts rest, Splits text ts rest ∧
      (scan found 0 column text).1.map Placed.token = found.reverse.map Placed.token ++ ts ∧
      ((scan found 0 column text).2 = none → rest = []) := by
  induction hn : text.length using Nat.strong_induction_on generalizing text found column with
  | _ n ih =>
  subst hn
  cases text with
  | nil => exact ⟨[], [], .done [], by simp [scan], fun _ => rfl⟩
  | cons c text =>
      cases hb : isBlank c with
      | true =>
          obtain ⟨ts, rest, hs, hscan⟩ := ih _ (by simp) text found _ rfl
          rw [scan_blank hb]
          exact ⟨ts, rest, .blank hb hs, hscan⟩
      | false =>
          cases ht : tokenAt? c text with
          | none =>
              rw [scan_stray hb ht]
              exact ⟨[], c :: text, .done _, by simp, by simp⟩
          | some token =>
              obtain ⟨t, length⟩ := token
              rcases tokenAt?_cases ht with hmark | ⟨w, rest', he, hw⟩
              · obtain ⟨ts, rest, hs, hscan⟩ := ih _ (by simp) text (⟨t, column⟩ :: found) _ rfl
                rw [scan_mark hmark]
                exact ⟨t :: ts, rest, .mark hmark hs, by simpa using hscan⟩
              · have hlength : rest'.length < (c :: text).length := by
                  have hpos := List.length_pos_iff.2 (longestName_iff.1 hw).1
                  rw [he, List.length_append]
                  omega
                obtain ⟨ts, rest, hs, hscan⟩ := ih _ hlength rest'
                  (⟨.name (String.ofList w), column⟩ :: found) _ rfl
                rw [he, scan_name hw]
                exact ⟨_ :: ts, rest, .name hw hs, by simpa using hscan⟩

/-- Where a whole text splits the reader has its tokens. -/
theorem Splits.scan
    (h : Splits text ts [])
    (found : List Placed)
    (column : Nat) :
    (TypeRef.scan found 0 column text).1.map Placed.token =
        found.reverse.map Placed.token ++ ts ∧
      (TypeRef.scan found 0 column text).2 = none := by
  generalize he : ([] : List Char) = rest at h
  induction h generalizing found column with
  | done rest =>
      subst he
      simp [TypeRef.scan]
  | blank hc _ ih =>
      rw [scan_blank hc]
      exact ih _ _ he
  | mark hc _ ih =>
      rw [scan_mark hc]
      simpa using ih (⟨_, column⟩ :: found) _ he
  | name hw _ ih =>
      rw [scan_name hw]
      simpa using ih (⟨_, column⟩ :: found) _ he

/-- The reader has the tokens of a text, and nothing stray, exactly when the text splits into them. -/
theorem tokens_iff
    {text : String} :
    (tokens text).1.map Placed.token = ts ∧ (tokens text).2 = none ↔
      Splits text.toList ts [] := by
  constructor
  · rintro ⟨rfl, hstray⟩
    obtain ⟨ts, rest, hs, hscan, hrest⟩ := scan_splits text.toList [] 1
    rw [tokens, hscan]
    rwa [hrest hstray] at hs
  · intro h
    exact h.scan [] 1

/-- A text splits into its tokens in one way. -/
theorem Splits.unique
    (h : Splits text ts [])
    {ts' : List Token}
    (h' : Splits text ts' []) :
    ts = ts' := by
  have he := (h.scan [] 1).1
  rw [(h'.scan [] 1).1] at he
  simpa using he.symm

end Scan

end TypeRef
end TypeGraph
