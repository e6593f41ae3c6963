import TypeGraph.Number.Binary64
import TypeGraph.Text.Digit

/-!
# Reading a real

A real is read from a text of its own, such as an argument: blanks around it, a sign, and then
decimal digits with a point and an exponent, or the word for an infinity or for what is not a number.
Digits of every script count, and a single underscore may stand between two digits.

**Results.**
* `joinDigits_of_no_underscore`: a text without underscores is not changed.
-/

namespace TypeGraph
namespace Binary64

/-- The blanks outside ASCII. -/
def wideBlanks : List Nat :=
  [0x85, 0xA0, 0x1680, 0x2000, 0x2001, 0x2002, 0x2003, 0x2004, 0x2005, 0x2006, 0x2007, 0x2008,
   0x2009, 0x200A, 0x2028, 0x2029, 0x202F, 0x205F, 0x3000]

/-- A blank at an end of the text. -/
def isBlank (c : Char) : Bool :=
  c == ' ' || decide ('\t' ≤ c ∧ c ≤ '\r') || wideBlanks.contains c.toNat

/-- The text without the blanks at its ends. -/
def strip (text : List Char) : List Char :=
  ((text.dropWhile isBlank).reverse.dropWhile isBlank).reverse

/-- A digit of any script as an ASCII digit; every other character stays. -/
def plainDigit (c : Char) : Char :=
  match Text.digitValue? c with
  | some value => Char.ofNat ('0'.toNat + value)
  | none => c

/-- The text without its underscores, each of which must stand between two digits; `afterDigit` says
that a digit came before. -/
def joinDigits (afterDigit : Bool) : List Char → Option (List Char)
  | [] => some []
  | c :: rest =>
      if c = '_' then
        if afterDigit && rest.head?.any Text.isDigit then joinDigits false rest else none
      else (joinDigits (Text.isDigit c) rest).map (c :: ·)

/-- A text without underscores is not changed. -/
theorem joinDigits_of_no_underscore
    (afterDigit : Bool)
    {text : List Char}
    (h : '_' ∉ text) :
    joinDigits afterDigit text = some text := by
  induction text generalizing afterDigit with
  | nil => rfl
  | cons c rest ih =>
      have hc : c ≠ '_' := fun e => h (e ▸ List.mem_cons_self)
      have hr : '_' ∉ rest := fun m => h (List.mem_cons_of_mem _ m)
      simp [joinDigits, hc, ih (Text.isDigit c) hr]

/-- The sign at the front of a text, and the rest. -/
def splitSign : List Char → Bool × List Char
  | '-' :: rest => (true, rest)
  | '+' :: rest => (false, rest)
  | text => (false, text)

/-- The power of ten of an exponent with its mark; no text at all stands for zero. -/
def exponent? : List Char → Option Int
  | [] => some 0
  | mark :: rest =>
      let (negative, digits) := splitSign rest
      if (mark = 'e' ∨ mark = 'E') ∧ !digits.isEmpty ∧ digits.all Text.isDigit then
        let power : Int := Text.digitsValue digits
        some (if negative then -power else power)
      else none

/-- The value of a text of digits with a point and an exponent; one digit at least comes before the
exponent. -/
def ofDigits? (negative : Bool) (text : List Char) : Option Binary64 :=
  let whole := text.takeWhile Text.isDigit
  let (fraction, rest) :=
    match text.dropWhile Text.isDigit with
    | '.' :: more => (more.takeWhile Text.isDigit, more.dropWhile Text.isDigit)
    | other => ([], other)
  if whole.isEmpty && fraction.isEmpty then none
  else
    (exponent? rest).map fun power =>
      ofDecimal negative (Text.digitsValue (whole ++ fraction)) (power - (fraction.length : Int))

/-- The real of a text, if it is one. -/
def ofText? (text : String) : Option Binary64 := do
  let chars ← joinDigits false ((strip text.toList).map plainDigit)
  let (negative, body) := splitSign chars
  let word := String.ofList (body.map Char.toLower)
  if word = "inf" ∨ word = "infinity" then return .infinite negative
  else if word = "nan" then return .nan
  else ofDigits? negative body

end Binary64
end TypeGraph
