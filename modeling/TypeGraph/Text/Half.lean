import TypeGraph.Text.Hex

/-!
# Halves of pairs

A character outside the first plane is written with two code units.  One of these that stands alone is
no character, but a document can spell it with an escape, and a text can hold it.  Here the unit that
stands alone is held as the private character sixteen planes above it, one from `U+10D800` to `U+10DFFF`.
These 2048 private characters stand for halves only; a text that holds one of them for itself is not told
apart.

A text with a half cannot be encoded; where it is escaped, the half is written as its code unit.

**Results.**
* `half?_halfChar`: a half is known again.
-/

namespace TypeGraph
namespace Text

/-- A code unit that begins a pair. -/
def isLeading (unit : Nat) : Bool :=
  decide (0xD800 ≤ unit ∧ unit < 0xDC00)

/-- A code unit that ends a pair. -/
def isTrailing (unit : Nat) : Bool :=
  decide (0xDC00 ≤ unit ∧ unit < 0xE000)

/-- The character of a code unit that stands alone. -/
def halfChar (unit : Nat) : Char :=
  Char.ofNat (0x100000 + unit)

/-- The code unit that stands alone in a text, if a character is one. -/
def half? (c : Char) : Option Nat :=
  if 0x10D800 ≤ c.toNat ∧ c.toNat < 0x10E000 then some (c.toNat - 0x100000) else none

/-- A half is known again. -/
theorem half?_halfChar
    {unit : Nat}
    (h : isLeading unit = true ∨ isTrailing unit = true) :
    half? (halfChar unit) = some unit := by
  have hunit : 0xD800 ≤ unit ∧ unit < 0xE000 := by
    simp only [isLeading, isTrailing, decide_eq_true_eq] at h
    omega
  have hvalid : (0x100000 + unit).isValidChar := by
    right
    omega
  have hchar : (halfChar unit).toNat = 0x100000 + unit := by
    rw [halfChar, Char.ofNat, dif_pos hvalid]
    rfl
  rw [half?, hchar, if_pos (by omega)]
  simp

/-- A text that cannot be encoded. -/
def holdsHalf (text : String) : Bool :=
  text.toList.any fun c => (half? c).isSome

end Text
end TypeGraph
