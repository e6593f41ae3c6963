import Mathlib.Computability.Language
import Mathlib.Data.List.TakeWhile
import TypeGraph.TypeRef.Token

/-!
# Names as a language

The names of a compact reference are the words of a regular expression: an optional scope between `@`
and `/`, then segments with single dots between them.  The length that a reader takes at the front of
a text is that of the longest such word there.

**Results.**
* `mem_segments_iff`: the segments of names are what a reader takes whole.
* `longestName_iff`: what is taken is the longest name at the front of a text.
-/

namespace TypeGraph
namespace TypeRef

open scoped Computability

/-- A segment of a name: letters, digits, underscores and hyphens, at least one. -/
def Segment : Language Char :=
  {w | w ≠ [] ∧ ∀ c ∈ w, isNameChar c = true}

/-- The segments of a name, with a dot between each two. -/
def Segments : Language Char :=
  Segment * ({['.']} * Segment)∗

/-- A scope, with its mark and its slash. -/
def Scope : Language Char :=
  {w | ∃ inner, inner ≠ [] ∧ (∀ c ∈ inner, isScopeChar c = true) ∧ w = '@' :: (inner ++ ['/'])}

/-- A name: a scope or none, and segments. -/
def Name : Language Char :=
  (1 + Scope) * Segments

/-- `w` is the longest name at the front of a text that goes on with `rest`. -/
def LongestName (w rest : List Char) : Prop :=
  w ∈ Name ∧ ∀ w' ∈ Name, w' <+: w ++ rest → w'.length ≤ w.length

section Segments

theorem startsSegment_iff
    {text : List Char} :
    startsSegment text = true ↔ ∃ c rest, text = c :: rest ∧ isNameChar c = true := by
  cases text with
  | nil => simp [startsSegment]
  | cons c rest => simp [startsSegment]

/-- A segment starts at the front of a longer text as it does at the front of its beginning. -/
theorem startsSegment_mono
    {w text : List Char}
    (h : w <+: text)
    (hs : startsSegment w = true) :
    startsSegment text = true := by
  obtain ⟨c, rest, rfl, hc⟩ := startsSegment_iff.1 hs
  obtain ⟨more, rfl⟩ := h
  exact startsSegment_iff.2 ⟨c, rest ++ more, rfl, hc⟩

theorem not_isNameChar_dot :
    isNameChar '.' = false := by
  decide

/-- No segment starts where more segments follow: they start with a dot. -/
theorem not_startsSegment_of_mem_kstar
    {w : List Char}
    (h : w ∈ ({['.']} * Segment : Language Char)∗) :
    startsSegment w = false := by
  obtain ⟨parts, rfl, hparts⟩ := Language.mem_kstar.1 h
  cases parts with
  | nil => rfl
  | cons part parts =>
      obtain ⟨dot, hdot, s, -, rfl⟩ := Language.mem_mul.1 (hparts part (by simp))
      obtain rfl : dot = ['.'] := hdot
      simp [startsSegment, not_isNameChar_dot]

/-- Characters of a segment are taken one by one. -/
theorem nameTail_append
    {s : List Char}
    (hs : ∀ c ∈ s, isNameChar c = true)
    (rest : List Char) :
    nameTail (s ++ rest) = s.length + nameTail rest := by
  induction s with
  | nil => simp
  | cons c s ih =>
      rw [List.cons_append, nameTail, if_pos (hs c (by simp)),
        ih fun d hd => hs d (List.mem_cons_of_mem _ hd), List.length_cons]
      omega

/-- More segments are taken whole. -/
theorem nameTail_of_mem_kstar
    {w : List Char}
    (h : w ∈ ({['.']} * Segment : Language Char)∗) :
    nameTail w = w.length := by
  obtain ⟨parts, rfl, hparts⟩ := Language.mem_kstar.1 h
  clear h
  induction parts with
  | nil => rfl
  | cons part parts ih =>
      obtain ⟨dot, hdot, s, ⟨hne, hs⟩, rfl⟩ := Language.mem_mul.1 (hparts part (by simp))
      obtain rfl : dot = ['.'] := hdot
      have hrest := ih fun p hp => hparts p (List.mem_cons_of_mem _ hp)
      have hstarts : startsSegment (s ++ parts.flatten) = true := by
        cases s with
        | nil => exact absurd rfl hne
        | cons c s => simpa [startsSegment] using hs c (by simp)
      simp only [List.flatten_cons, List.nil_append, List.cons_append]
      rw [nameTail, not_isNameChar_dot, if_neg (by simp), if_pos ⟨rfl, hstarts⟩,
        nameTail_append hs, hrest]
      simp

/-- What is taken whole is a rest of a segment and more segments. -/
theorem exists_of_nameTail_eq_length
    {w : List Char}
    (h : nameTail w = w.length) :
    ∃ s rest, (∀ c ∈ s, isNameChar c = true) ∧
      rest ∈ ({['.']} * Segment : Language Char)∗ ∧ w = s ++ rest := by
  induction w with
  | nil => exact ⟨[], [], by simp, Language.nil_mem_kstar _, rfl⟩
  | cons c w ih =>
      rw [nameTail, List.length_cons] at h
      split at h
      · rename_i hc
        obtain ⟨s, rest, hs, hrest, rfl⟩ := ih (by omega)
        exact ⟨c :: s, rest, by simpa [hc] using hs, hrest, rfl⟩
      · split at h
        · rename_i hdot
          obtain ⟨rfl, hstarts⟩ := hdot
          obtain ⟨s, rest, hs, hrest, rfl⟩ := ih (by omega)
          have hne : s ≠ [] := by
            rintro rfl
            rw [List.nil_append, not_startsSegment_of_mem_kstar hrest] at hstarts
            cases hstarts
          refine ⟨[], '.' :: (s ++ rest), by simp, ?_, rfl⟩
          obtain ⟨parts, rfl, hparts⟩ := Language.mem_kstar.1 hrest
          refine Language.mem_kstar.2 ⟨('.' :: s) :: parts, by simp, ?_⟩
          intro part hp
          rcases List.mem_cons.1 hp with rfl | hp
          · exact Language.mem_mul.2 ⟨['.'], rfl, s, ⟨hne, hs⟩, rfl⟩
          · exact hparts part hp
        · omega

/-- The segments of names are what is taken whole where a segment starts. -/
theorem mem_segments_iff
    {w : List Char} :
    w ∈ Segments ↔ startsSegment w = true ∧ nameTail w = w.length := by
  constructor
  · intro h
    obtain ⟨s, ⟨hne, hs⟩, rest, hrest, rfl⟩ := Language.mem_mul.1 h
    refine ⟨?_, ?_⟩
    · cases s with
      | nil => exact absurd rfl hne
      | cons c s => simpa [startsSegment] using hs c (by simp)
    · rw [nameTail_append hs, nameTail_of_mem_kstar hrest, List.length_append]
  · rintro ⟨hstarts, hlength⟩
    obtain ⟨s, rest, hs, hrest, rfl⟩ := exists_of_nameTail_eq_length hlength
    refine Language.mem_mul.2 ⟨s, ⟨?_, hs⟩, rest, hrest, rfl⟩
    rintro rfl
    rw [List.nil_append, not_startsSegment_of_mem_kstar hrest] at hstarts
    cases hstarts

theorem nameTail_le_length
    (text : List Char) :
    nameTail text ≤ text.length := by
  induction text with
  | nil => simp [nameTail]
  | cons c rest ih =>
      rw [nameTail, List.length_cons]
      split
      · omega
      · split <;> omega

/-- What is taken at the front of a text is taken whole. -/
theorem nameTail_take
    (text : List Char) :
    nameTail (text.take (nameTail text)) = nameTail text := by
  induction text with
  | nil => rfl
  | cons c rest ih =>
      rw [nameTail]
      split
      · rename_i hc
        rw [List.take_succ_cons, nameTail, if_pos hc, ih]
      · rename_i hc
        split
        · rename_i hdot
          obtain ⟨rfl, hstarts⟩ := hdot
          obtain ⟨d, more, rfl, hd⟩ := startsSegment_iff.1 hstarts
          have hstarts' : startsSegment ((d :: more).take (nameTail (d :: more))) = true := by
            rw [nameTail, if_pos hd, List.take_succ_cons]
            exact hd
          rw [List.take_succ_cons, nameTail, if_neg hc, if_pos ⟨rfl, hstarts'⟩, ih]
        · rfl

/-- No longer beginning of a text is taken whole. -/
theorem length_le_nameTail
    {w text : List Char}
    (h : w <+: text)
    (hw : nameTail w = w.length) :
    w.length ≤ nameTail text := by
  induction w generalizing text with
  | nil => simp
  | cons c w ih =>
      obtain ⟨more, rfl⟩ := h
      rw [nameTail, List.length_cons] at hw
      rw [List.cons_append, nameTail, List.length_cons]
      split at hw
      · rename_i hc
        have hle := ih (List.prefix_append w more) (by omega)
        rw [if_pos hc]
        omega
      · rename_i hc
        split at hw
        · rename_i hdot
          have hstarts := startsSegment_mono (List.prefix_append w more) hdot.2
          have hle := ih (List.prefix_append w more) (by omega)
          rw [if_neg hc, if_pos ⟨hdot.1, hstarts⟩]
          omega
        · omega

/-- The segments that are taken at the front of a text are segments, and the longest there. -/
theorem segmentsLength_spec
    (text : List Char) :
    (segmentsLength text ≠ 0 → text.take (segmentsLength text) ∈ Segments) ∧
      ∀ w ∈ Segments, w <+: text → w ≠ [] ∧ w.length ≤ segmentsLength text := by
  refine ⟨?_, ?_⟩
  · intro h
    unfold segmentsLength at h ⊢
    split at h
    · rename_i hstarts
      rw [if_pos hstarts]
      obtain ⟨c, rest, rfl, hc⟩ := startsSegment_iff.1 hstarts
      refine mem_segments_iff.2 ⟨?_, ?_⟩
      · rw [nameTail, if_pos hc, List.take_succ_cons]
        exact hc
      · rw [nameTail_take, List.length_take, Nat.min_eq_left (nameTail_le_length _)]
    · exact absurd rfl h
  · intro w hw hprefix
    obtain ⟨hstarts, hlength⟩ := mem_segments_iff.1 hw
    refine ⟨?_, ?_⟩
    · rintro rfl
      simp [startsSegment] at hstarts
    · rw [segmentsLength, if_pos (startsSegment_mono hprefix hstarts)]
      exact length_le_nameTail hprefix hlength

end Segments

section Names

/-- A character that a name may have. -/
def isNamePart (c : Char) : Bool :=
  isScopeChar c || c == '@' || c == '/'

theorem not_isScopeChar_slash :
    isScopeChar '/' = false := by
  decide

/-- The scope at the front of a text ends at the first slash. -/
theorem scopeLength_of_scope
    {inner : List Char}
    (hne : inner ≠ [])
    (hinner : ∀ c ∈ inner, isScopeChar c = true)
    (rest : List Char) :
    scopeLength ('@' :: (inner ++ '/' :: rest)) = inner.length + 2 := by
  have htake : (inner ++ '/' :: rest).takeWhile isScopeChar = inner := by
    rw [List.takeWhile_append_of_pos hinner, List.takeWhile_cons, not_isScopeChar_slash]
    simp
  cases inner with
  | nil => exact absurd rfl hne
  | cons c inner =>
      simp only [scopeLength, htake]
      simp

/-- Where a scope is taken there is one. -/
theorem scopeLength_cases
    (text : List Char) :
    scopeLength text = 0 ∨
      ∃ inner rest, inner ≠ [] ∧ (∀ c ∈ inner, isScopeChar c = true) ∧
        text = '@' :: (inner ++ '/' :: rest) := by
  unfold scopeLength
  split
  · rename_i text
    simp only
    split
    · rename_i c inner rest hscope hslash
      refine Or.inr ⟨c :: inner, rest, by simp, ?_, ?_⟩
      · intro d hd
        rw [← hscope] at hd
        exact List.mem_takeWhile_imp hd
      · rw [hscope] at hslash
        rw [← hslash, ← hscope, List.cons.injEq]
        exact ⟨rfl, (List.prefix_iff_eq_append.1 (List.takeWhile_prefix _)).symm⟩
    · exact Or.inl rfl
  · exact Or.inl rfl

theorem scopeLength_of_segment
    {text : List Char}
    (h : startsSegment text = true) :
    scopeLength text = 0 := by
  obtain ⟨c, rest, rfl, hc⟩ := startsSegment_iff.1 h
  unfold scopeLength
  split
  · rename_i heq
    obtain ⟨rfl, -⟩ := List.cons.inj heq
    exact absurd hc (by decide)
  · rfl

/-- A name is the segments of a name, or a scope and segments. -/
theorem mem_name_iff
    {w : List Char} :
    w ∈ Name ↔ w ∈ Segments ∨
      ∃ inner s, inner ≠ [] ∧ (∀ c ∈ inner, isScopeChar c = true) ∧ s ∈ Segments ∧
        w = '@' :: (inner ++ '/' :: s) := by
  rw [Name, add_mul, one_mul, Language.mem_add, Language.mem_mul]
  refine or_congr Iff.rfl ?_
  constructor
  · rintro ⟨scope, ⟨inner, hne, hinner, rfl⟩, s, hs, rfl⟩
    exact ⟨inner, s, hne, hinner, hs, by simp⟩
  · rintro ⟨inner, s, hne, hinner, hs, rfl⟩
    exact ⟨_, ⟨inner, hne, hinner, rfl⟩, s, hs, by simp⟩

/-- The name that is taken at the front of a text is a name. -/
theorem take_nameLength_mem
    (text : List Char)
    (h : nameLength text ≠ 0) :
    text.take (nameLength text) ∈ Name := by
  unfold nameLength at h ⊢
  simp only at h ⊢
  split at h
  · exact absurd rfl h
  · rename_i hsegments
    rw [if_neg hsegments]
    have hmem := (segmentsLength_spec (text.drop (scopeLength text))).1 hsegments
    rcases scopeLength_cases text with hscope | ⟨inner, rest, hne, hinner, rfl⟩
    · rw [hscope, List.drop_zero] at hmem
      rw [hscope, List.drop_zero, Nat.zero_add]
      exact mem_name_iff.2 (Or.inl hmem)
    · have hdrop : ('@' :: (inner ++ '/' :: rest)).drop (inner.length + 2) = rest := by
        simp
      rw [scopeLength_of_scope hne hinner, hdrop] at hmem ⊢
      refine mem_name_iff.2 (Or.inr ⟨inner, _, hne, hinner, hmem, ?_⟩)
      rw [show inner.length + 2 + segmentsLength rest = inner.length + (segmentsLength rest + 1) + 1
        by omega, List.take_succ_cons, List.take_length_add_append, List.take_succ_cons]

/-- No longer name stands at the front of a text than the one that is taken. -/
theorem length_le_nameLength
    {w text : List Char}
    (hw : w ∈ Name)
    (h : w <+: text) :
    w ≠ [] ∧ w.length ≤ nameLength text := by
  unfold nameLength
  simp only
  rcases mem_name_iff.1 hw with hs | ⟨inner, s, hne, hinner, hs, rfl⟩
  · have hstarts := startsSegment_mono h (mem_segments_iff.1 hs).1
    obtain ⟨hnonempty, hle⟩ := (segmentsLength_spec text).2 w hs h
    have hpos := List.length_pos_iff.2 hnonempty
    rw [scopeLength_of_segment hstarts, List.drop_zero, if_neg (by omega)]
    exact ⟨hnonempty, by omega⟩
  · obtain ⟨more, rfl⟩ := h
    have htext : '@' :: (inner ++ '/' :: s) ++ more = '@' :: (inner ++ '/' :: (s ++ more)) := by
      simp
    have hdrop : ('@' :: (inner ++ '/' :: (s ++ more))).drop (inner.length + 2) = s ++ more := by
      simp
    obtain ⟨hnonempty, hle⟩ := (segmentsLength_spec (s ++ more)).2 s hs (List.prefix_append s more)
    have hpos := List.length_pos_iff.2 hnonempty
    rw [htext, scopeLength_of_scope hne hinner, hdrop, if_neg (by omega)]
    refine ⟨by simp, ?_⟩
    simp only [List.length_cons, List.length_append]
    omega

/-- Segments have the characters of scopes only. -/
theorem isScopeChar_of_nameTail
    {w : List Char}
    (h : nameTail w = w.length) :
    ∀ c ∈ w, isScopeChar c = true := by
  induction w with
  | nil => simp
  | cons d w ih =>
      rw [nameTail, List.length_cons] at h
      split at h
      · rename_i hd
        rw [List.forall_mem_cons]
        exact ⟨by simp [isScopeChar, hd], ih (by omega)⟩
      · split at h
        · rename_i hdot
          rw [List.forall_mem_cons]
          exact ⟨by simp [isScopeChar, hdot.1], ih (by omega)⟩
        · omega

theorem isNamePart_of_mem_name
    {w : List Char}
    (h : w ∈ Name) :
    ∀ c ∈ w, isNamePart c = true := by
  have hscope : ∀ c, isScopeChar c = true → isNamePart c = true := by
    intro c hc
    simp [isNamePart, hc]
  rcases mem_name_iff.1 h with hs | ⟨inner, s, -, hinner, hs, rfl⟩
  · exact fun c hc => hscope c (isScopeChar_of_nameTail (mem_segments_iff.1 hs).2 c hc)
  · intro c hc
    simp only [List.mem_cons, List.mem_append] at hc
    rcases hc with rfl | hc | rfl | hc
    · decide
    · exact hscope c (hinner c hc)
    · decide
    · exact hscope c (isScopeChar_of_nameTail (mem_segments_iff.1 hs).2 c hc)

theorem nameLength_le_length
    (text : List Char) :
    nameLength text ≤ text.length := by
  unfold nameLength
  simp only
  split
  · omega
  · rename_i hsegments
    have hle : segmentsLength (text.drop (scopeLength text)) ≤ text.length - scopeLength text := by
      rw [← List.length_drop]
      unfold segmentsLength
      split
      · exact nameTail_le_length _
      · omega
    omega

/-- What is taken at the front of a text is the longest name there. -/
theorem longestName_iff
    {w rest : List Char} :
    LongestName w rest ↔ w ≠ [] ∧ nameLength (w ++ rest) = w.length := by
  constructor
  · rintro ⟨hw, hlongest⟩
    obtain ⟨hne, hle⟩ := length_le_nameLength hw (List.prefix_append w rest)
    have hpos := List.length_pos_iff.2 hne
    have htake := hlongest _ (take_nameLength_mem (w ++ rest) (by omega))
      (List.take_prefix _ _)
    rw [List.length_take, Nat.min_eq_left (nameLength_le_length _)] at htake
    exact ⟨hne, Nat.le_antisymm htake hle⟩
  · rintro ⟨hne, hlength⟩
    have hpos := List.length_pos_iff.2 hne
    have hmem := take_nameLength_mem (w ++ rest) (by omega)
    rw [hlength, List.take_left] at hmem
    refine ⟨hmem, fun w' hw' hprefix => ?_⟩
    rw [← hlength]
    exact (length_le_nameLength hw' hprefix).2

end Names

end TypeRef
end TypeGraph
