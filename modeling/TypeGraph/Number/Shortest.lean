import TypeGraph.Number.Binary64

/-!
# Shortest decimal text of a real

A real is written with the fewest decimal digits that still read back as the same binary64 value.
For each count of digits the two points of the decimal grid around the value are tested, in exact
arithmetic, against the interval of rationals that round to the value; the first grid with a hit
wins, and of two hits the nearer one, or the one with the even last digit when both are as near.

The text is positional from `0.0001` up to sixteen places before the point, and always has a
fraction there; all other magnitudes are written with an exponent of at least two digits.
-/

namespace TypeGraph
namespace Binary64

/-- A decimal number `digits · 10 ^ power`. -/
structure Decimal where
  digits : Nat
  power : Int
  deriving DecidableEq, Repr

/-- `10 ^ power` as a numerator and a denominator. -/
def tenPower (power : Int) : Nat × Nat :=
  if 0 ≤ power then (Nat.pow 10 power.toNat, 1) else (1, Nat.pow 10 (-power).toNat)

/-- The rationals that round to a finite value, in units of a quarter of its last place: the value
is `centre`, the interval reaches from `low` to `high`, and one unit is `unitNum / unitDen`. -/
structure Interval where
  low : Nat
  centre : Nat
  high : Nat
  closed : Bool
  unitNum : Nat
  unitDen : Nat

/-- The interval that rounds to `mantissa · 2 ^ exponent`.  Below a power of two the next value
is half as far; the ends round to the value when its mantissa is even. -/
def interval (mantissa : Nat) (exponent : Int) : Interval :=
  let below := if mantissa = Nat.pow 2 52 ∧ minExponent < exponent then 1 else 2
  let unit := exponent - 2
  { low := 4 * mantissa - below
    centre := 4 * mantissa
    high := 4 * mantissa + 2
    closed := mantissa % 2 == 0
    unitNum := if 0 ≤ unit then Nat.pow 2 unit.toNat else 1
    unitDen := if 0 ≤ unit then 1 else Nat.pow 2 (-unit).toNat }

/-- The decimal lies in the interval. -/
def Interval.contains (i : Interval) (d : Decimal) : Bool :=
  let (num, den) := tenPower d.power
  let x := d.digits * num * i.unitDen
  let low := i.low * i.unitNum * den
  let high := i.high * i.unitNum * den
  if i.closed then decide (low ≤ x ∧ x ≤ high) else decide (low < x ∧ x < high)

/-- Twice the distance from the decimal to the centre, in a unit that depends on the power only. -/
def Interval.distance (i : Interval) (d : Decimal) : Nat :=
  let (num, den) := tenPower d.power
  let x := d.digits * num * i.unitDen
  let c := i.centre * i.unitNum * den
  if x ≤ c then c - x else x - c

/-- The power of ten of the first digit of `num / den`. -/
def leadingPower (num den : Nat) : Int :=
  if den ≤ num then ((Nat.toDigits 10 (num / den)).length : Int) - 1
  else
    let places := (Nat.toDigits 10 (den / num)).length
    if num * Nat.pow 10 (places - 1) = den then -((places : Int) - 1) else -(places : Int)

/-- The nearer of two neighbours of the centre on a grid; of two at one distance the one whose last
digit is even. -/
def Interval.nearer (i : Interval) (lower upper : Decimal) : Decimal :=
  if i.distance lower < i.distance upper then lower
  else if i.distance lower = i.distance upper ∧ lower.digits % 2 = 0 then lower
  else upper

/-- The candidate of the grid with `count` digits: the neighbour of the centre that lies in the
interval, the nearer one when both do. -/
def Interval.onGrid (i : Interval) (leading : Int) (count : Nat) : Option Decimal :=
  let power := leading - (count : Int) + 1
  let (num, den) := tenPower power
  let floor := i.centre * i.unitNum * den / (num * i.unitDen)
  let lower : Decimal := ⟨floor, power⟩
  let upper : Decimal := ⟨floor + 1, power⟩
  match i.contains lower, i.contains upper with
  | true, true => some (i.nearer lower upper)
  | true, false => some lower
  | false, true => some upper
  | false, false => none

/-- The shortest decimal that rounds to `mantissa · 2 ^ exponent`; seventeen digits always do. -/
def shortest (mantissa : Nat) (exponent : Int) : Decimal :=
  let i := interval mantissa exponent
  let leading := leadingPower (i.centre * i.unitNum) i.unitDen
  let counts := (List.range 17).map (· + 1)
  (counts.findSome? (i.onGrid leading)).getD ⟨mantissa, exponent⟩

/-- The digits without the zeros at their end. -/
def trimZeros (digits : List Char) : List Char :=
  (digits.reverse.dropWhile (· == '0')).reverse

/-- An exponent with its sign and at least two digits. -/
def exponentText (power : Int) : String :=
  let digits := Nat.toDigits 10 power.natAbs
  let padded := if digits.length < 2 then '0' :: digits else digits
  String.ofList ('e' :: (if power < 0 then '-' else '+') :: padded)

/-- The text of a decimal: positional when the power of its first digit lies from -4 to 15. -/
def Decimal.text (d : Decimal) : String :=
  let all := Nat.toDigits 10 d.digits
  let leading : Int := d.power + (all.length : Int) - 1
  let digits := trimZeros all
  if 0 ≤ leading ∧ leading < 16 then
    let whole := leading.toNat + 1
    let front := (digits ++ List.replicate (whole - digits.length) '0').take whole
    let fraction := digits.drop whole
    String.ofList (front ++ '.' :: (if fraction.isEmpty then ['0'] else fraction))
  else if -4 ≤ leading ∧ leading < 0 then
    String.ofList ('0' :: '.' :: (List.replicate ((-leading).toNat - 1) '0' ++ digits))
  else
    let mantissa :=
      match digits with
      | first :: second :: rest => first :: '.' :: second :: rest
      | short => short
    String.ofList mantissa ++ exponentText leading

/-- The shortest text that reads back as the value. -/
def text : Binary64 → String
  | .nan => "nan"
  | .infinite s => if s then "-inf" else "inf"
  | .finite s m e =>
      let sign := if s then "-" else ""
      if m = 0 then sign ++ "0.0" else sign ++ (shortest m e).text

end Binary64

/-- The text of a number: an integer in decimal, a real in its shortest text. -/
def Number.text : Number → String
  | .int n => toString n
  | .real x => x.text

end TypeGraph
