import TypeGraph.Json.Basic
import TypeGraph.Number.Shortest

/-!
# Long integers

An integer with more than 4300 digits is a value like any other, but it is neither read from decimal
digits nor written in them.  What breaks off in this way is no fault of a document: it is told by the
number of digits where these were read, and without it where they would have been written.
-/

namespace TypeGraph
namespace Json

/-- The most digits of an integer that is read or written. -/
def digitLimit : Nat := 4300

/-- An integer with too many digits. -/
inductive DigitFault where
  | read (digits : Nat)
  | shown
  deriving DecidableEq, Repr

/-- The wording of a fault. -/
def DigitFault.message : DigitFault → String
  | .read digits =>
      "Exceeds the limit (4300 digits) for integer string conversion: value has " ++
        s!"{digits} digits; use sys.set_int_max_str_digits() to increase the limit"
  | .shown =>
      "Exceeds the limit (4300 digits) for integer string conversion; " ++
        "use sys.set_int_max_str_digits() to increase the limit"

/-- An integer that is not written in digits. -/
def isLong (n : Int) : Bool :=
  decide (digitLimit < (toString n.natAbs).length)

mutual

/-- A value that cannot be shown, because it is or holds a long integer. -/
def holdsLong : Json → Bool
  | .number (.int n) => isLong n
  | .array items => anyLong items
  | .object fields => anyFieldLong fields
  | _ => false

/-- One of some items cannot be shown. -/
def anyLong : List Json → Bool
  | [] => false
  | item :: rest => holdsLong item || anyLong rest

/-- The value of one of some fields cannot be shown. -/
def anyFieldLong : List (String × Json) → Bool
  | [] => false
  | (_, value) :: rest => holdsLong value || anyFieldLong rest

end

end Json
end TypeGraph
