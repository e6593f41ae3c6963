import TypeGraph.Json.Writer
import TypeGraph.Proofs.Text.Ascii

/-!
# Written documents are in ASCII

Whatever a value holds, it is written in ASCII: digits, the signs of numbers, the marks of the format and
the characters that need no escape.  So a written value can always be encoded, even when it holds half of
a pair.

**Results.**
* `Number.ascii_text`: the text of a number is in ASCII.
* `Json.ascii_write`: so is a written value.
-/

namespace TypeGraph

open Text

section Numbers

namespace Binary64

theorem ascii_trimZeros
    {digits : List Char}
    (h : Ascii digits) :
    Ascii (trimZeros digits) := by
  refine h.of_subset fun c hc => ?_
  rw [trimZeros, List.mem_reverse] at hc
  exact List.mem_reverse.1 ((List.dropWhile_sublist _).subset hc)

theorem ascii_exponentText
    (power : Int) :
    Ascii (exponentText power).toList := by
  have hdigits := ascii_toDigits power.natAbs
  unfold exponentText
  simp only [String.toList_ofList, ascii_cons]
  refine ⟨by decide, ?_, ?_⟩
  · split <;> decide
  · split
    · exact ascii_cons.2 ⟨by decide, hdigits⟩
    · exact hdigits

/-- The text of a decimal is in ASCII in each of its three forms. -/
theorem Decimal.ascii_text
    (d : Decimal) :
    Ascii d.text.toList := by
  have hdigits := ascii_trimZeros (ascii_toDigits d.digits)
  have hzeros := fun n => ascii_replicate n (show '0'.toNat < 128 by decide)
  unfold Decimal.text
  simp only
  generalize trimZeros (Nat.toDigits 10 d.digits) = digits at hdigits
  split
  · -- the digits around the point, with a zero where there are none behind it
    simp only [String.toList_ofList, ascii_append, ascii_cons]
    refine ⟨Ascii.of_subset (ascii_append.2 ⟨hdigits, hzeros _⟩) (List.take_subset _ _), by decide, ?_⟩
    split
    · decide
    · exact hdigits.of_subset (List.drop_subset _ _)
  · split
    · simp [hdigits, hzeros]
    · simp only [String.toList_append, String.toList_ofList, ascii_append, ascii_exponentText,
        and_true]
      split
      · simpa using hdigits
      · exact hdigits

theorem ascii_text
    (x : Binary64) :
    Ascii x.text.toList := by
  cases x with
  | nan => decide
  | infinite negative => cases negative <;> decide
  | finite negative mantissa exponent =>
      have hdecimal := (shortest mantissa exponent).ascii_text
      unfold text
      simp only
      split <;> split <;> simp [hdecimal]

end Binary64

/-- The text of a number is in ASCII. -/
theorem Number.ascii_text
    (n : Number) :
    Ascii n.text.toList := by
  cases n with
  | real x => exact x.ascii_text
  | int n =>
      change Ascii n.repr.toList
      cases n with
      | ofNat n => simpa [Int.repr, Nat.toList_repr] using ascii_toDigits n
      | negSucc n => simpa [Int.repr, Nat.toList_repr] using ascii_toDigits (n + 1)

end Numbers

namespace Json

theorem ascii_unitEscape
    (unit : Nat) :
    Ascii (unitEscape unit) := by
  simp [unitEscape, ascii_hexDigits]

/-- Every character is written in ASCII: as itself, or escaped. -/
theorem ascii_writeChar
    (c : Char) :
    Ascii (writeChar c) := by
  unfold writeChar
  split_ifs with _ _ _ _ _ _ _ hprintable
  -- a letter stands behind the backslash, or a mark
  iterate 7 · decide
  · have hc : c.toNat ≤ 126 := hprintable.2
    exact ascii_cons.2 ⟨by omega, ascii_nil⟩
  · exact ascii_unitEscape _
  · split
    · exact ascii_unitEscape _
    · exact ascii_append.2 ⟨ascii_unitEscape _, ascii_unitEscape _⟩

theorem ascii_writeText
    (text : String) :
    Ascii (writeText text).toList := by
  simp only [writeText, String.toList_ofList, ascii_cons, ascii_append, ascii_nil, and_true]
  refine ⟨by decide, ?_, by decide⟩
  intro c hc
  obtain ⟨written, -, hmem⟩ := List.mem_flatMap.1 hc
  exact ascii_writeChar written c hmem

theorem ascii_writeNumber
    (n : Number) :
    Ascii (writeNumber n).toList := by
  unfold writeNumber
  split
  · decide
  · decide
  · decide
  · exact n.ascii_text

mutual

/-- A written value is in ASCII. -/
theorem ascii_write : ∀ value : Json, Ascii (write value).toList
  | .null => by simp [write]
  | .bool b => by cases b <;> simp [write]
  | .number n => ascii_writeNumber n
  | .string s => ascii_writeText s
  | .array items => by
      have hitems := ascii_intercalate (by decide : Ascii ",".toList) (ascii_writeItems items)
      rw [write, String.toList_append, String.toList_append]
      exact ascii_append.2 ⟨ascii_append.2 ⟨by decide, hitems⟩, by decide⟩
  | .object fields => by
      have hfields := ascii_intercalate (by decide : Ascii ",".toList) (ascii_writeFields fields)
      rw [write, String.toList_append, String.toList_append]
      exact ascii_append.2 ⟨ascii_append.2 ⟨by decide, hfields⟩, by decide⟩

theorem ascii_writeItems : ∀ items : List Json, ∀ piece ∈ writeItems items, Ascii piece.toList
  | [] => by simp [writeItems]
  | item :: rest => by
      have hrest := ascii_writeItems rest
      simp only [writeItems, List.forall_mem_cons]
      exact ⟨ascii_write item, hrest⟩

theorem ascii_writeFields :
    ∀ fields : List (String × Json), ∀ piece ∈ writeFields fields, Ascii piece.toList
  | [] => by simp [writeFields]
  | (name, value) :: rest => by
      have hrest := ascii_writeFields rest
      have hvalue := ascii_write value
      simp only [writeFields, List.forall_mem_cons]
      exact ⟨by simp [ascii_writeText, hvalue], hrest⟩

end

end Json
end TypeGraph
