import Mathlib.Data.List.Basic
import TypeGraph.Text.Half
import TypeGraph.Text.Utf8

/-!
# Texts in ASCII

Each character of a text in ASCII is one byte.  Such a text is read back from its bytes, and it holds no
half of a pair.

**Results.**
* `ascii_toDigits`, `ascii_hexDigits`: digits are in ASCII.
* `holdsHalf_of_ascii`: a text in ASCII holds no half.
* `ofUtf8_ascii`: it is read back from its bytes.
-/

namespace TypeGraph
namespace Text

/-- All characters are in ASCII. -/
def Ascii (chars : List Char) : Prop :=
  ∀ c ∈ chars, c.toNat < 128

instance (chars : List Char) : Decidable (Ascii chars) :=
  List.decidableBAll _ chars

section Ascii

variable {c : Char} {chars other : List Char}

@[simp] theorem ascii_nil :
    Ascii [] := by
  simp [Ascii]

@[simp] theorem ascii_cons :
    Ascii (c :: chars) ↔ c.toNat < 128 ∧ Ascii chars := by
  simp [Ascii]

@[simp] theorem ascii_append :
    Ascii (chars ++ other) ↔ Ascii chars ∧ Ascii other := by
  simp only [Ascii, List.mem_append, or_imp, forall_and]

theorem Ascii.of_subset
    (h : Ascii chars)
    (hs : other ⊆ chars) :
    Ascii other :=
  fun c hc => h c (hs hc)

theorem ascii_replicate
    (n : Nat)
    (hc : c.toNat < 128) :
    Ascii (List.replicate n c) := by
  intro d hd
  rwa [List.eq_of_mem_replicate hd]

/-- Texts with a separator between them are in ASCII when they and the separator are. -/
theorem ascii_intercalate
    {separator : String}
    {pieces : List String}
    (hs : Ascii separator.toList)
    (hp : ∀ piece ∈ pieces, Ascii piece.toList) :
    Ascii (separator.intercalate pieces).toList := by
  induction pieces with
  | nil => simp
  | cons piece rest ih =>
      obtain ⟨hpiece, hothers⟩ := List.forall_mem_cons.1 hp
      have hrest := ih hothers
      cases rest with
      | nil => simpa using hpiece
      | cons next more =>
          rw [String.intercalate_cons_cons, String.toList_append, String.toList_append]
          exact ascii_append.2 ⟨ascii_append.2 ⟨hpiece, hs⟩, hrest⟩

/-- The digits of a number are in ASCII. -/
theorem ascii_toDigits
    (n : Nat) :
    Ascii (Nat.toDigits 10 n) := by
  intro c hc
  have hdigit := Nat.isDigit_of_mem_toDigits (by decide) (by decide) hc
  simp only [Char.isDigit, Bool.and_eq_true, decide_eq_true_eq, UInt32.le_iff_toNat_le] at hdigit
  have hc : c.toNat = c.val.toNat := rfl
  have hnine : '9'.val.toNat = 57 := rfl
  omega

theorem ascii_hexDigits
    (count value : Nat) :
    Ascii (hexDigits count value) := by
  have hdigit : ∀ v < 16, (hexDigit v).toNat < 128 := by decide
  induction count generalizing value with
  | zero => simp [hexDigits]
  | succ count ih =>
      simp only [hexDigits, ascii_append, ascii_cons, ascii_nil, and_true]
      exact ⟨ih _, hdigit _ (Nat.mod_lt _ (by decide))⟩

/-- A text in ASCII holds no half. -/
theorem holdsHalf_of_ascii
    {text : String}
    (h : Ascii text.toList) :
    holdsHalf text = false := by
  refine List.any_eq_false.2 fun c hc => ?_
  have hsmall := h c hc
  rw [half?, if_neg (by omega)]
  decide

/-- The bytes of a text of which every character is one byte. -/
def asciiBytes (chars : List Char) : List UInt8 :=
  chars.map fun c => c.toNat.toUInt8

theorem utf8Chars_ascii
    (h : Ascii chars)
    (read : List Char)
    (position : Nat) :
    utf8Chars read position none (asciiBytes chars) = .ok (read.reverse ++ chars) := by
  induction chars generalizing read position with
  | nil => simp [asciiBytes, utf8Chars]
  | cons c rest ih =>
      obtain ⟨hc, hothers⟩ := ascii_cons.1 h
      have hbyte : c.toNat.toUInt8 < 0x80 := by
        rw [UInt8.lt_iff_toNat_lt]
        simp
        omega
      have hback : Char.ofNat c.toNat.toUInt8.toNat = c := by
        have hmod : c.toNat % 256 = c.toNat := Nat.mod_eq_of_lt (by omega)
        simp [hmod]
      have hrest := ih hothers (c :: read) (position + 1)
      simp only [asciiBytes, List.map_cons, utf8Chars, if_pos hbyte, hback]
      simpa [asciiBytes] using hrest

/-- The bytes of a text of one-byte characters are read back as that text. -/
theorem ofUtf8_ascii
    (h : Ascii chars) :
    ofUtf8 (asciiBytes chars) = .ok (String.ofList chars) := by
  rw [ofUtf8, utf8Chars_ascii h]
  rfl

end Ascii
end Text
end TypeGraph
