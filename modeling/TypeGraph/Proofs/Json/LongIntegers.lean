import Mathlib.Data.List.TakeWhile
import TypeGraph.Json.Reader

/-!
# Documents that are long integers

A document that is an integer in digits is read as this integer, up to the limit of digits, and from there
on it is not read at all.

**Results.**
* `Json.read_long`: an integer with too many digits is not read.
-/

namespace TypeGraph
namespace Json

section Digits

variable {c : Char} {rest : List Char}

/-- A digit is none of the characters that are not digits. -/
theorem ne_of_isDigit
    (h : Text.isDigit c = true)
    {other : Char}
    (ho : Text.isDigit other = false) :
    c ≠ other := by
  rintro rfl
  rw [h] at ho
  cases ho

/-- A digit starts no literal. -/
theorem scanLiteral_digit
    (h : Text.isDigit c = true) :
    scanLiteral (c :: rest) = none := by
  have hne : ∀ other, Text.isDigit other = false → other ≠ c := fun _ ho => (ne_of_isDigit h ho).symm
  simp [scanLiteral, literals, hne 'n' (by decide), hne 't' (by decide), hne 'f' (by decide),
    hne 'N' (by decide), hne 'I' (by decide), hne '-' (by decide)]

/-- Digits are the number that they spell, unless a zero stands first. -/
theorem scanNumber_digits
    (h : ∀ d ∈ c :: rest, Text.isDigit d = true)
    (hc : c ≠ '0') :
    scanNumber (c :: rest) =
      some (.int (Text.digitsValue (c :: rest)), (c :: rest).length) := by
  have hminus : c ≠ '-' := ne_of_isDigit (h c (by simp)) (by decide)
  have htake : (c :: rest).takeWhile Text.isDigit = c :: rest :=
    List.takeWhile_eq_self_iff.2 h
  have hwhole : wholeDigits (c :: rest) = c :: rest := by
    unfold wholeDigits
    split
    · rename_i he
      cases he
      exact absurd rfl hc
    · exact htake
  unfold scanNumber
  split
  rename_i negative body signs he
  split at he
  · rename_i hne
    cases hne
    exact absurd rfl hminus
  · cases he
    simp [hwhole, fractionDigits, exponentPart]

/-- What belongs to a lexeme is left out. -/
theorem lexemes_skip
    (found : List Placed)
    (rest : List Char) :
    lexemes found rest.length rest = found.reverse := by
  induction rest with
  | nil => rfl
  | cons c rest ih => exact ih

/-- An integer with too many digits is not read. -/
theorem read_long
    {text : List Char}
    (h : ∀ d ∈ text, Text.isDigit d = true)
    (hzero : text.head? ≠ some '0')
    (hlong : digitLimit < text.length) :
    read (String.ofList text) = .error ⟨.tooManyDigits text.length, 1⟩ := by
  cases text with
  | nil => simp at hlong
  | cons c rest =>
      have hc := h c (by simp)
      have hne : ∀ other, Text.isDigit other = false → c ≠ other := fun _ ho => ne_of_isDigit hc ho
      have hnumber := scanNumber_digits h (by simpa using hzero)
      have hminus : c ≠ '-' := hne _ (by decide)
      have hlexeme : lexemeAt c rest = (.long (c :: rest).length, rest.length) := by
        unfold lexemeAt
        rw [if_neg (by simp [hne '\x7b' (by decide), hne '\x7d' (by decide), hne '[' (by decide),
          hne ']' (by decide), hne ':' (by decide), hne ',' (by decide)]),
          if_neg (hne '\x22' (by decide)), scanLiteral_digit hc]
        simp only [hnumber, numberLexeme, if_neg hminus, if_neg (Nat.not_le.2 hlong)]
        rfl
      have hblank : isBlank c = false := by
        simp [isBlank, hne ' ' (by decide), hne '\t' (by decide), hne '\n' (by decide),
          hne '\r' (by decide)]
      have hlexemes : lexemes [] 0 (c :: rest) = [⟨.long (c :: rest).length, c :: rest⟩] := by
        simp [lexemes, hblank, hlexeme, lexemes_skip]
      have hmark : c ≠ '\uFEFF' := hne _ (by decide)
      simp [read, hlexemes, hmark, ofLexemes, advance, startValue, Except.map, lineOf]

end Digits

end Json
end TypeGraph
