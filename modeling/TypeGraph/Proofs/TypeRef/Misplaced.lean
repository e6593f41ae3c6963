import TypeGraph.Proofs.TypeRef.Parsing
import TypeGraph.Proofs.TypeRef.Viable

/-!
# Where a text stops being a reference

A text that is no reference is faulted at one place, the first one at which it cannot go on: at a token
that no derivation has there, at a character where neither a token nor white space starts, or at its last
token when it ends too early.  Tokens are cut one by one, so what comes first in the text is what is
reported.

**Results.**
* `Reached.scan`, `Reached.exists_tokens`: the reader has placed the tokens before it, each where it starts.
* `Offends.phrase_eq`: a text that offends at a place is faulted there.
* `exists_offends_or_phrase`: a text offends at a place or has a phrase.
* `misplaced_exact`: what is reported is the first place that offends.
-/

namespace TypeGraph
namespace TypeRef

/-- The column after some text: columns count from one and start again after a line feed. -/
def columnAfter (taken : List Char) : Nat :=
  (taken.reverse.takeWhile fun c => c != '\n').length + 1

/-- At the front of a text that goes on with `rest`, the characters `w` are the token `t`. -/
inductive TokenAt : Token → List Char → List Char → Prop
  | mark {c : Char} {t : Token} {rest : List Char} :
      markToken? c = some t →
      TokenAt t [c] rest
  | name {w rest : List Char} :
      LongestName w rest →
      TokenAt (.name (String.ofList w)) w rest

/-- The column at which the last token of a text starts; one, when there is no token. -/
inductive LastColumn (text : List Char) : List Token → Nat → Prop
  | absent :
      LastColumn text [] 1
  | last {ts : List Token} {t : Token} {taken w rest : List Char} :
      text = taken ++ (w ++ rest) →
      Splits text ts (w ++ rest) →
      TokenAt t w rest →
      LastColumn text (ts ++ [t]) (columnAfter taken)

/-- The places at which a text stops being a reference. -/
inductive Offends (text : List Char) : Misplaced → Prop
  /-- The tokens up to here start a derivation, and none goes on with the token that starts here. -/
  | token {ts : List Token} {t : Token} {taken w rest : List Char} :
      text = taken ++ (w ++ rest) →
      Splits text ts (w ++ rest) →
      TokenAt t w rest →
      Viable ts →
      ¬ Viable (ts ++ [t]) →
      Offends text (.token (columnAfter taken))
  /-- All tokens start a derivation that does not end with them. -/
  | ended {ts : List Token} {column : Nat} :
      Splits text ts [] →
      Viable ts →
      ¬ Derivable ts →
      LastColumn text ts column →
      Offends text (.token column)
  /-- The tokens up to here start a derivation, and neither a token nor white space starts here. -/
  | character {ts : List Token} {c : Char} {taken rest : List Char} :
      text = taken ++ c :: rest →
      Splits text ts (c :: rest) →
      isBlank c = false →
      (∀ t w more, c :: rest = w ++ more → ¬ TokenAt t w more) →
      Viable ts →
      Offends text (.character (columnAfter taken))

section Columns

variable {taken w : List Char} {c : Char}

theorem columnAfter_concat :
    columnAfter (taken ++ [c]) = if c = '\n' then 1 else columnAfter taken + 1 := by
  unfold columnAfter
  by_cases hc : c = '\n' <;> simp [hc]

/-- On one line each character takes a column. -/
theorem columnAfter_append
    (hw : ∀ c ∈ w, c ≠ '\n') :
    columnAfter (taken ++ w) = columnAfter taken + w.length := by
  induction w generalizing taken with
  | nil => simp
  | cons c w ih =>
      obtain ⟨hc, hw⟩ := List.forall_mem_cons.1 hw
      rw [← List.singleton_append, ← List.append_assoc, ih hw, columnAfter_concat, if_neg hc]
      simp
      omega

end Columns

section Tokens

variable {t : Token} {c : Char} {text w rest : List Char}

/-- A token has no line feed. -/
theorem TokenAt.ne_newline
    (h : TokenAt t w rest) :
    ∀ c ∈ w, c ≠ '\n' := by
  rintro c hc rfl
  have hblank : isBlank '\n' = true := rfl
  cases h with
  | mark hmark =>
      obtain rfl := List.mem_singleton.1 hc
      rw [(isBlank_of_markToken? hmark).1] at hblank
      cases hblank
  | name hname =>
      rw [isBlank_of_isNamePart (isNamePart_of_mem_name hname.1 _ hc)] at hblank
      cases hblank

/-- A text splits off the token at its front. -/
theorem TokenAt.splits
    (h : TokenAt t w rest) :
    Splits (w ++ rest) [t] rest := by
  cases h with
  | mark hmark => exact .mark hmark (.done rest)
  | name hname => exact .name hname (.done rest)

theorem TokenAt.ne_nil
    (h : TokenAt t w rest) :
    w ≠ [] := by
  cases h with
  | mark => simp
  | name hname => exact (longestName_iff.1 hname).1

theorem TokenAt.scan
    (h : TokenAt t w rest)
    (found : List Placed)
    (column : Nat) :
    TypeRef.scan found 0 column (w ++ rest) =
      TypeRef.scan (⟨t, column⟩ :: found) 0 (column + w.length) rest := by
  cases h with
  | mark hmark => exact scan_mark hmark
  | name hname => exact scan_name hname

/-- Where the reader finds a token there is one. -/
theorem exists_tokenAt
    {length : Nat}
    (h : tokenAt? c text = some (t, length)) :
    ∃ t w rest, c :: text = w ++ rest ∧ TokenAt t w rest := by
  rcases tokenAt?_cases h with hmark | ⟨w, rest, he, hname⟩
  · exact ⟨t, [c], text, rfl, .mark hmark⟩
  · exact ⟨_, w, rest, he, .name hname⟩

/-- The reader finds no token exactly where none starts. -/
theorem tokenAt?_eq_none_iff :
    tokenAt? c text = none ↔ ∀ t w rest, c :: text = w ++ rest → ¬ TokenAt t w rest := by
  constructor
  · intro hnone t w rest he ht
    cases ht with
    | mark hmark =>
        obtain ⟨rfl, rfl⟩ := List.cons.inj he
        simp [tokenAt?, hmark] at hnone
    | name hname =>
        obtain ⟨hne, hlength⟩ := longestName_iff.1 hname
        rw [← he] at hlength
        have hpos := List.length_pos_iff.2 hne
        unfold tokenAt? at hnone
        split at hnone
        · cases hnone
        · simp [hlength, hne] at hnone
  · intro hnone
    cases h : tokenAt? c text with
    | none => rfl
    | some token =>
        obtain ⟨t, w, rest, he, ht⟩ := exists_tokenAt h
        exact absurd ht (hnone t w rest he)

end Tokens

/-- The reader is in a text behind `taken`, with the tokens that it has placed, and before `rest`. -/
inductive Reached (text : List Char) : List Placed → List Char → List Char → Prop
  | start :
      Reached text [] [] text
  | blank {placed : List Placed} {c : Char} {taken rest : List Char} :
      Reached text placed taken (c :: rest) →
      isBlank c = true →
      Reached text placed (taken ++ [c]) rest
  | token {placed : List Placed} {t : Token} {taken w rest : List Char} :
      Reached text placed taken (w ++ rest) →
      TokenAt t w rest →
      Reached text (placed ++ [⟨t, columnAfter taken⟩]) (taken ++ w) rest

section Reached

variable {text taken rest : List Char} {placed : List Placed}

theorem Reached.eq_append
    (h : Reached text placed taken rest) :
    text = taken ++ rest := by
  induction h with
  | start => rfl
  | blank _ _ ih => simpa using ih
  | token _ _ ih => simpa using ih

/-- What is placed are the tokens of the text. -/
theorem Reached.splits
    (h : Reached text placed taken rest) :
    Splits text (placed.map Placed.token) rest := by
  induction h with
  | start => exact .done text
  | blank _ hc ih => simpa using ih.trans (.blank hc (.done _))
  | token _ ht ih =>
      rw [List.map_append]
      exact ih.trans ht.splits

/-- The reader goes on from where it is. -/
theorem Reached.scan
    (h : Reached text placed taken rest) :
    TypeRef.scan [] 0 1 text = TypeRef.scan placed.reverse 0 (columnAfter taken) rest := by
  induction h with
  | start => rfl
  | blank _ hc ih => rw [ih, scan_blank hc, columnAfter_concat]
  | token _ ht ih => rw [ih, ht.scan, columnAfter_append ht.ne_newline, List.reverse_concat]

/-- Where a text splits, the reader comes. -/
theorem Splits.reached
    {ts : List Token}
    {middle : List Char}
    (hs : Splits middle ts rest)
    (h : Reached text placed taken middle) :
    ∃ more taken', Reached text (placed ++ more) taken' rest ∧ more.map Placed.token = ts := by
  induction hs generalizing placed taken with
  | done => exact ⟨[], taken, by simpa using h, rfl⟩
  | blank hc _ ih => exact ih (h.blank hc)
  | mark hc _ ih =>
      obtain ⟨more, taken', hr, rfl⟩ := ih (h.token (.mark hc))
      exact ⟨_ :: more, taken', by simpa using hr, rfl⟩
  | name hw _ ih =>
      obtain ⟨more, taken', hr, rfl⟩ := ih (h.token (.name hw))
      exact ⟨_ :: more, taken', by simpa using hr, rfl⟩

/-- A text is read to its end or to a character where neither a token nor white space starts. -/
theorem Reached.exists_end
    (h : Reached text placed taken rest) :
    ∃ more taken' rest', Reached text (placed ++ more) taken' rest' ∧
      ∀ c after, rest' = c :: after → isBlank c = false ∧ tokenAt? c after = none := by
  induction hn : rest.length using Nat.strong_induction_on generalizing placed taken rest with
  | _ n ih =>
  subst hn
  cases rest with
  | nil => exact ⟨[], taken, [], by simpa using h, by simp⟩
  | cons c rest =>
      cases hb : isBlank c with
      | true => exact ih _ (by simp) (h.blank hb) rfl
      | false =>
          cases ht : tokenAt? c rest with
          | none =>
              refine ⟨[], taken, c :: rest, by simpa using h, ?_⟩
              rintro d after he
              cases he
              exact ⟨hb, ht⟩
          | some token =>
              obtain ⟨t, w, after, he, hw⟩ := exists_tokenAt ht
              have hlength : after.length < (c :: rest).length := by
                have hpos := List.length_pos_iff.2 hw.ne_nil
                rw [he, List.length_append]
                omega
              rw [he] at h
              obtain ⟨more, taken', rest', hr, hend⟩ := ih _ hlength (h.token hw) rfl
              exact ⟨_ :: more, taken', rest', by simpa using hr, hend⟩

/-- What is placed stays at the front of the tokens of the text. -/
theorem Reached.exists_tokens
    {text : String}
    (h : Reached text.toList placed taken rest) :
    ∃ more stray, tokens text = (placed ++ more, stray) := by
  obtain ⟨more, taken', rest', hr, hend⟩ := h.exists_end
  refine ⟨more, (tokens text).2, Prod.ext ?_ rfl⟩
  rw [tokens, hr.scan]
  cases rest' with
  | nil => simp [TypeRef.scan]
  | cons c after =>
      obtain ⟨hb, ht⟩ := hend c after rfl
      rw [scan_stray hb ht, List.reverse_reverse]

/-- Each token that is placed starts where it is placed. -/
theorem Reached.exists_before
    {before after : List Placed}
    {p : Placed}
    (h : Reached text (before ++ p :: after) taken rest) :
    ∃ taken' w rest', Reached text before taken' (w ++ rest') ∧ TokenAt p.token w rest' ∧
      p.column = columnAfter taken' := by
  generalize he : before ++ p :: after = placed at h
  induction h generalizing after with
  | start => simp at he
  | blank _ _ ih => exact ih he
  | @token placed t taken w rest hr ht ih =>
      cases after using List.reverseRecOn with
      | nil =>
          obtain ⟨rfl, hp⟩ := List.append_inj' he rfl
          cases hp
          exact ⟨taken, w, rest, hr, ht, rfl⟩
      | append_singleton after q =>
          rw [← List.cons_append, ← List.append_assoc] at he
          exact ih (List.append_inj' he rfl).1

end Reached

section Faults

variable {before after placed : List Placed} {r r' : Reading} {last : Nat} {stray : Option Nat}

/-- The column of the last token that is placed. -/
def lastColumn (last : Nat) (placed : List Placed) : Nat :=
  placed.foldl (fun _ p => p.column) last

/-- Tokens that the machine takes are left behind, but for the column of the last one. -/
theorem phraseOf_append
    (h : r.run? (before.map Placed.token) = some r') :
    phraseOf r last stray (before ++ after) = phraseOf r' (lastColumn last before) stray after := by
  induction before generalizing r last with
  | nil =>
      cases h
      rfl
  | cons p before ih =>
      rw [List.map_cons, Reading.run?_cons] at h
      obtain ⟨next, hnext, hrun⟩ := Option.bind_eq_some_iff.1 h
      rw [List.cons_append, phraseOf, hnext]
      exact ih hrun

/-- A token that no derivation goes on with is at fault. -/
theorem phraseOf_of_refused
    {p : Placed}
    (hbefore : Viable (before.map Placed.token))
    (hp : ¬ Viable (before.map Placed.token ++ [p.token])) :
    phraseOf .start last stray (before ++ p :: after) = .error (.token p.column) := by
  obtain ⟨r, hr⟩ := exists_run?_iff.2 hbefore
  rw [phraseOf_append hr, phraseOf, (step?_eq_none_iff hr).2 hp]

/-- Where all tokens are taken, a character at which none starts is at fault. -/
theorem phraseOf_of_stray
    {column : Nat}
    (h : Viable (placed.map Placed.token)) :
    phraseOf .start last (some column) placed = .error (.character column) := by
  obtain ⟨r, hr⟩ := exists_run?_iff.2 h
  rw [← List.append_nil placed, phraseOf_append hr, phraseOf]

/-- Where all tokens are taken and no derivation ends, the last token is at fault. -/
theorem phraseOf_of_ended
    (h : Viable (placed.map Placed.token))
    (hnone : ¬ Derivable (placed.map Placed.token)) :
    phraseOf .start last none placed = .error (.token (lastColumn last placed)) := by
  obtain ⟨r, hr⟩ := exists_run?_iff.2 h
  have hfinish : r.finish? = none := by
    rw [Option.eq_none_iff_forall_ne_some]
    exact fun p hp => hnone ((exists_finish?_iff hr).1 ⟨p, hp⟩)
  rw [← List.append_nil placed, phraseOf_append hr, List.append_nil]
  simp only [phraseOf, hfinish]

end Faults

section Places

variable {text : String} {place : Misplaced}

/-- The column at which the last token of a text starts is the one where the reader places it. -/
theorem LastColumn.eq_lastColumn
    {ts : List Token}
    {column : Nat}
    (h : LastColumn text.toList ts column)
    {placed : List Placed}
    (htokens : tokens text = (placed, none))
    (hts : placed.map Placed.token = ts) :
    lastColumn 1 placed = column := by
  cases h with
  | absent =>
      obtain rfl := List.map_eq_nil_iff.1 hts
      rfl
  | @last ts t taken w rest htext hs ht =>
      obtain ⟨before, taken', hr, rfl⟩ := hs.reached .start
      obtain rfl : taken' = taken := List.append_cancel_right (hr.eq_append.symm.trans htext)
      obtain ⟨more, stray, hmore⟩ := (hr.token ht).exists_tokens
      rw [htokens, Prod.mk.injEq] at hmore
      obtain ⟨rfl, -⟩ := hmore
      -- as many tokens are placed up to the last one as there are
      obtain rfl : more = [] := by simpa using congrArg List.length hts
      simp [lastColumn]

/-- The column of the last token that is placed is the one at which the last token starts. -/
theorem Reached.lastColumn
    {text taken rest : List Char}
    {placed : List Placed}
    (h : Reached text placed taken rest) :
    LastColumn text (placed.map Placed.token) (TypeRef.lastColumn 1 placed) := by
  cases placed using List.reverseRecOn with
  | nil => exact .absent
  | append_singleton placed p =>
      obtain ⟨taken', w, rest', hr, hp, hcolumn⟩ := h.exists_before
      have hlast : TypeRef.lastColumn 1 (placed ++ [p]) = columnAfter taken' := by
        simp [TypeRef.lastColumn, hcolumn]
      rw [hlast, List.map_append]
      exact .last hr.eq_append hr.splits hp

/-- A text that offends at a place is faulted there. -/
theorem Offends.phrase_eq
    (h : Offends text.toList place) :
    phrase text = .error place := by
  have hphrase : phrase text = phraseOf .start 1 (tokens text).2 (tokens text).1 := rfl
  rw [hphrase]
  cases h with
  | token htext hs ht hviable hnot =>
      obtain ⟨before, taken', hr, rfl⟩ := hs.reached .start
      obtain rfl := List.append_cancel_right (hr.eq_append.symm.trans htext)
      obtain ⟨more, stray, htokens⟩ := (hr.token ht).exists_tokens
      rw [htokens]
      simp only [List.nil_append, List.append_assoc, List.singleton_append]
      exact phraseOf_of_refused hviable hnot
  | ended hs hviable hnone hlast =>
      obtain ⟨placed, taken', hr, rfl⟩ := hs.reached .start
      have htokens : tokens text = (placed, none) := by
        rw [tokens, hr.scan]
        simp [scan]
      rw [htokens, phraseOf_of_ended hviable hnone, hlast.eq_lastColumn htokens rfl]
  | @character ts c taken rest htext hs hb hnone hviable =>
      obtain ⟨placed, taken', hr, rfl⟩ := hs.reached .start
      obtain rfl := List.append_cancel_right (hr.eq_append.symm.trans htext)
      have ht := tokenAt?_eq_none_iff.2 hnone
      have htokens : tokens text = (placed, some (columnAfter taken')) := by
        rw [tokens, hr.scan, scan_stray hb ht]
        simp
      rw [htokens, phraseOf_of_stray hviable]

/-- A text offends at a place or has a phrase. -/
theorem exists_offends_or_phrase
    (text : String) :
    (∃ place, Offends text.toList place) ∨ ∃ p, phrase text = .ok p := by
  have hstart : Reached text.toList [] [] text.toList := .start
  obtain ⟨placed, taken, rest, hr, hend⟩ := hstart.exists_end
  rw [List.nil_append] at hr
  by_cases hviable : Viable (placed.map Placed.token)
  · cases rest with
    | nil =>
        by_cases hderived : Derivable (placed.map Placed.token)
        · obtain ⟨u, hu⟩ := hderived
          exact Or.inr ⟨_, phrase_eq_ok_iff.2 ⟨u, hu ▸ hr.splits, rfl⟩⟩
        · exact Or.inl ⟨_, .ended hr.splits hviable hderived hr.lastColumn⟩
    | cons c rest =>
        obtain ⟨hb, ht⟩ := hend c rest rfl
        exact Or.inl ⟨_, .character hr.eq_append hr.splits hb (tokenAt?_eq_none_iff.1 ht) hviable⟩
  · obtain ⟨ts, t, us, hts, hbefore, ht⟩ := exists_first_refused hviable
    obtain ⟨before, placed, rfl, rfl, hus⟩ := List.map_eq_append_iff.1 hts
    obtain ⟨p, after, rfl, rfl, rfl⟩ := List.map_eq_cons_iff.1 hus
    obtain ⟨taken', w, rest', hr', hp, -⟩ := hr.exists_before
    exact Or.inl ⟨_, .token hr'.eq_append hr'.splits hp hbefore ht⟩

end Places

/-- A text is refused as misplaced exactly when it splits into no derivation, and exactly at the one
place at which it offends:
* at a token, if a derivation starts with the tokens before it and none with these and the token, the
  column being that of its first character;
* at the last token, or in column one when there is none, if the text splits into tokens with which a
  derivation starts but none ends;
* at a character where neither a token nor white space starts, if the text before it splits into tokens
  with which a derivation starts. -/
theorem misplaced_exact
    (text : String) :
    (∀ place, parse text = .error (.misplaced text place) ↔ Offends text.toList place) ∧
      ((¬ ∃ u : Derivation .union, Splits text.toList u.tokens []) ↔
        ∃ place, Offends text.toList place) := by
  have hphrase : ∀ place, phrase text = .error place ↔ Offends text.toList place := by
    intro place
    refine ⟨fun h => ?_, Offends.phrase_eq⟩
    rcases exists_offends_or_phrase text with ⟨place', hplace'⟩ | ⟨p, hp⟩
    · have hsame := hplace'.phrase_eq
      rw [h] at hsame
      cases hsame
      exact hplace'
    · rw [h] at hp
      cases hp
  have hparse : ∀ place, parse text = .error (.misplaced text place) ↔
      Offends text.toList place := by
    intro place
    rw [← hphrase, parse]
    cases hp : phrase text with
    | error found => simp
    | ok p => cases hr : denote p <;> simp [hr]
  exact ⟨hparse, parse_eq_misplaced_iff.symm.trans (exists_congr hparse)⟩

-- the bracket is the last token, and stands in the second column of the second line
example : parse "number\n [" = .error (.misplaced "number\n [" (.token 2)) := by
  rfl

-- the bar is refused before the stray character behind it is looked at
example : parse "Map<| $" = .error (.misplaced "Map<| $" (.token 5)) := by
  rfl

end TypeRef
end TypeGraph
