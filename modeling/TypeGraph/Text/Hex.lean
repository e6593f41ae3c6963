/-!
# Hexadecimal digits

Code points are written in hexadecimal with a fixed number of lower-case digits, and read back from
digits of either case.

**Results.**
* `ofHex?_hexDigits_two`: two digits read back every value below 256.
-/

namespace TypeGraph
namespace Text

/-- The lower-case digit of a value below sixteen. -/
def hexDigit (value : Nat) : Char :=
  (['0', '1', '2', '3', '4', '5', '6', '7', '8', '9', 'a', 'b', 'c', 'd', 'e', 'f'][value]?).getD '0'

/-- The last `count` hexadecimal digits of a value. -/
def hexDigits : (count : Nat) → (value : Nat) → List Char
  | 0, _ => []
  | count + 1, value => hexDigits count (value / 16) ++ [hexDigit (value % 16)]

/-- The value of one hexadecimal digit. -/
def hexValue? (c : Char) : Option Nat :=
  if '0' ≤ c ∧ c ≤ '9' then some (c.toNat - '0'.toNat)
  else if 'a' ≤ c ∧ c ≤ 'f' then some (c.toNat - 'a'.toNat + 10)
  else if 'A' ≤ c ∧ c ≤ 'F' then some (c.toNat - 'A'.toNat + 10)
  else none

/-- The value of a sequence of hexadecimal digits. -/
def ofHex? (digits : List Char) : Option Nat :=
  digits.foldlM (fun value c => (hexValue? c).map (value * 16 + ·)) 0

/-- Two digits read back every value below 256. -/
theorem ofHex?_hexDigits_two :
    ∀ value < 256, ofHex? (hexDigits 2 value) = some value := by
  decide +kernel

end Text
end TypeGraph
