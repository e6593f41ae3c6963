/-!
# Binary64 numbers

The reals of a manifest, an option or a command line are held as binary64 values: a sign, a
mantissa and a power of two, an infinity, or a value that is not a number.  No machine
arithmetic is involved: a ratio of naturals is rounded to its nearest binary64 value by exact
division, so every value here can be reasoned about as a rational number.

**Results.**
* `roundHalfEven_of_dvd`: an exact quotient is not moved by rounding.
* `Binary64.isNonpositive_nan`: what is not a number is not below or equal to zero.
-/

namespace TypeGraph

/-- A binary64 value; `finite s m e` stands for `m · 2 ^ e`, negated when `s` holds. -/
inductive Binary64 where
  | finite (negative : Bool) (mantissa : Nat) (exponent : Int)
  | infinite (negative : Bool)
  | nan
  deriving DecidableEq, Repr

/-- The quotient of two naturals rounded to the nearest natural, a half going to the even one. -/
def roundHalfEven (num den : Nat) : Nat :=
  let quotient := num / den
  let twice := 2 * (num % den)
  if twice < den then quotient
  else if twice = den then quotient + quotient % 2
  else quotient + 1

/-- An exact quotient is not moved by rounding. -/
theorem roundHalfEven_of_dvd
    {num den : Nat}
    (hden : 0 < den)
    (h : den ∣ num) :
    roundHalfEven num den = num / den := by
  simp [roundHalfEven, Nat.mod_eq_zero_of_dvd h, hden]

namespace Binary64

/-- The exponent of the least positive value. -/
def minExponent : Int := -1074

/-- The exponent of the greatest finite values. -/
def maxExponent : Int := 971

/-- One more than the greatest mantissa. -/
def mantissaLimit : Nat := Nat.pow 2 53

/-- The numerator and denominator of `num / den / 2 ^ e`. -/
def scaled (num den : Nat) (e : Int) : Nat × Nat :=
  if 0 ≤ e then (num, den * Nat.pow 2 e.toNat) else (num * Nat.pow 2 (-e).toNat, den)

/-- The greatest exponent at which `num / den` still has a mantissa of full length, or the least
exponent of all for a ratio too small for that. -/
def exponentOf (num den : Nat) : Int :=
  let guess : Int := (num.log2 : Int) - (den.log2 : Int) - 52
  let (n, d) := scaled num den guess
  max minExponent (if n < d * Nat.pow 2 52 then guess - 1 else guess)

/-- The finite value of a rounded mantissa, or an infinity when it is out of range. -/
def pack (negative : Bool) (mantissa : Nat) (exponent : Int) : Binary64 :=
  let (m, e) := if mantissa = mantissaLimit then (Nat.pow 2 52, exponent + 1) else (mantissa, exponent)
  if maxExponent < e then .infinite negative else .finite negative m e

/-- Zero, with its sign. -/
def zero (negative : Bool) : Binary64 :=
  .finite negative 0 minExponent

/-- The binary64 value nearest to `num / den`. -/
def ofRatio (negative : Bool) (num den : Nat) : Binary64 :=
  if num = 0 then zero negative
  else
    let e := exponentOf num den
    let (n, d) := scaled num den e
    pack negative (roundHalfEven n d) e

/-- The binary64 value nearest to `digits · 10 ^ power`.  Magnitudes from `10 ^ 310` on are
infinite and those below `10 ^ -400` are zero, so the power of ten is never expanded for them. -/
def ofDecimal (negative : Bool) (digits : Nat) (power : Int) : Binary64 :=
  let top : Int := (Nat.toDigits 10 digits).length + power
  if digits = 0 then zero negative
  else if 310 < top then .infinite negative
  else if top < -400 then zero negative
  else if 0 ≤ power then ofRatio negative (digits * Nat.pow 10 power.toNat) 1
  else ofRatio negative digits (Nat.pow 10 (-power).toNat)

/-- The nearest binary64 value of an integer, or nothing when that value is not finite. -/
def ofInt? (n : Int) : Option Binary64 :=
  match ofRatio (decide (n < 0)) n.natAbs 1 with
  | .finite s m e => some (.finite s m e)
  | _ => none

/-- The value is a zero of either sign. -/
def isZero : Binary64 → Bool
  | .finite _ m _ => m == 0
  | _ => false

/-- The value is below or equal to zero. -/
def isNonpositive : Binary64 → Bool
  | .finite s m _ => s || m == 0
  | .infinite s => s
  | .nan => false

/-- What is not a number is not below or equal to zero. -/
@[simp] theorem isNonpositive_nan : isNonpositive .nan = false := rfl

/-- Neither zero is above zero. -/
@[simp] theorem isNonpositive_zero (s : Bool) : isNonpositive (zero s) = true := by
  cases s <;> rfl

end Binary64

/-- A number of a document: an integer of any size, or a real. -/
inductive Number where
  | int (value : Int)
  | real (value : Binary64)
  deriving DecidableEq, Repr

namespace Number

/-- The number is zero, in either form. -/
def isZero : Number → Bool
  | .int n => n == 0
  | .real x => x.isZero

/-- The number is below or equal to zero. -/
def isNonpositive : Number → Bool
  | .int n => decide (n ≤ 0)
  | .real x => x.isNonpositive

end Number

end TypeGraph
