/-!
# Decimal digits

Besides the ASCII digits many scripts have ten decimal digits of their own, which stand next to each
other in ascending order.  The table lists the zeros of Unicode 15.0.

**Results.**
* `digitValue?_lt`: a digit is below ten.
* `digitValue?_of_isDigit`: an ASCII digit has its usual value.
-/

namespace TypeGraph
namespace Text

/-- An ASCII digit. -/
def isDigit (c : Char) : Bool :=
  decide ('0' ≤ c ∧ c ≤ '9')

/-- The value of a sequence of ASCII digits. -/
def digitsValue (digits : List Char) : Nat :=
  digits.foldl (fun value c => value * 10 + (c.toNat - '0'.toNat)) 0

/-- The code points of the zeros. -/
def digitZeros : List Nat :=
  [0x30, 0x660, 0x6F0, 0x7C0, 0x966, 0x9E6, 0xA66, 0xAE6, 0xB66, 0xBE6, 0xC66, 0xCE6, 0xD66,
   0xDE6, 0xE50, 0xED0, 0xF20, 0x1040, 0x1090, 0x17E0, 0x1810, 0x1946, 0x19D0, 0x1A80, 0x1A90,
   0x1B50, 0x1BB0, 0x1C40, 0x1C50, 0xA620, 0xA8D0, 0xA900, 0xA9D0, 0xA9F0, 0xAA50, 0xABF0,
   0xFF10, 0x104A0, 0x10D30, 0x11066, 0x110F0, 0x11136, 0x111D0, 0x112F0, 0x11450, 0x114D0,
   0x11650, 0x116C0, 0x11730, 0x118E0, 0x11950, 0x11C50, 0x11D50, 0x11DA0, 0x11F50, 0x16A60,
   0x16AC0, 0x16B50, 0x1D7CE, 0x1D7D8, 0x1D7E2, 0x1D7EC, 0x1D7F6, 0x1E140, 0x1E2F0, 0x1E4F0,
   0x1E950, 0x1FBF0]

/-- The value of a digit of any script. -/
def digitValue? (c : Char) : Option Nat :=
  digitZeros.findSome? fun first =>
    if first ≤ c.toNat ∧ c.toNat < first + 10 then some (c.toNat - first) else none

/-- A digit is below ten. -/
theorem digitValue?_lt
    {c : Char}
    {value : Nat}
    (h : digitValue? c = some value) :
    value < 10 := by
  obtain ⟨first, _, hz⟩ := List.exists_of_findSome?_eq_some h
  split at hz
  · cases hz
    omega
  · cases hz

/-- An ASCII digit has its usual value. -/
theorem digitValue?_of_isDigit
    {c : Char}
    (h : isDigit c = true) :
    digitValue? c = some (c.toNat - '0'.toNat) := by
  have hc : 48 ≤ c.toNat ∧ c.toNat < 48 + 10 := by
    have h' : '0' ≤ c ∧ c ≤ '9' := by simpa [isDigit] using h
    have h₀ : '0'.toNat ≤ c.toNat := h'.1
    have h₉ : c.toNat ≤ '9'.toNat := h'.2
    have e₀ : '0'.toNat = 48 := rfl
    have e₉ : '9'.toNat = 57 := rfl
    omega
  simp only [digitValue?, digitZeros, List.findSome?_cons]
  simp [hc]

end Text
end TypeGraph
