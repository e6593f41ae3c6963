import TypeGraph.Text.Half
import TypeGraph.Text.Printable

/-!
# Quoted text

A text inside a shown value stands between single quotes, or between double quotes when it holds a
single quote and no double one.  The chosen quote and the backslash are escaped, line feed, carriage
return and tab have short escapes, and every other unprintable character is written as its code
point in two, four or eight hexadecimal digits.

**Results.**
* `quoteFor_eq_double_iff`: when the double quote is chosen.
* `escape_of_printable`: a printable character outside ASCII stands for itself.
-/

namespace TypeGraph
namespace Text

/-- The single quotation mark. -/
def singleQuote : Char := '\x27'

/-- The double quotation mark. -/
def doubleQuote : Char := '\x22'

/-- The backslash. -/
def backslash : Char := '\x5c'

/-- The quotation mark around a text. -/
def quoteFor (text : List Char) : Char :=
  if text.contains singleQuote && !text.contains doubleQuote then doubleQuote else singleQuote

/-- The double quote is chosen exactly for a text with a single quote and no double one. -/
theorem quoteFor_eq_double_iff
    (text : List Char) :
    quoteFor text = doubleQuote ↔ singleQuote ∈ text ∧ doubleQuote ∉ text := by
  unfold quoteFor
  split <;> rename_i h
  · simpa using h
  · simp only [List.contains_iff_mem, Bool.and_eq_true, Bool.not_eq_true'] at h
    constructor
    · intro hq
      exact absurd hq (by decide)
    · rintro ⟨h₁, h₂⟩
      exact absurd ⟨h₁, by simpa using h₂⟩ h

/-- One character of a text that stands between the given quotation marks. -/
def escape (quote c : Char) : List Char :=
  if c = quote || c = backslash then [backslash, c]
  else if c = '\n' then [backslash, 'n']
  else if c = '\r' then [backslash, 'r']
  else if c = '\t' then [backslash, 't']
  else if isPrintable c then [c]
  else if c.toNat < 0x100 then backslash :: 'x' :: hexDigits 2 c.toNat
  else if c.toNat < 0x10000 then backslash :: 'u' :: hexDigits 4 c.toNat
  else
    match half? c with
    | some unit => backslash :: 'u' :: hexDigits 4 unit
    | none => backslash :: 'U' :: hexDigits 8 c.toNat

/-- A printable character that is neither the quotation mark nor a backslash stands for itself. -/
theorem escape_of_printable
    {quote c : Char}
    (hq : c ≠ quote)
    (hb : c ≠ backslash)
    (h : isPrintable c = true) :
    escape quote c = [c] := by
  have hn : c ≠ '\n' := by rintro rfl; revert h; decide
  have hr : c ≠ '\r' := by rintro rfl; revert h; decide
  have ht : c ≠ '\t' := by rintro rfl; revert h; decide
  simp [escape, hq, hb, hn, hr, ht, h]

/-- A text between its quotation marks. -/
def quoted (text : String) : String :=
  let chars := text.toList
  let quote := quoteFor chars
  String.ofList (quote :: (chars.flatMap (escape quote) ++ [quote]))

end Text
end TypeGraph
