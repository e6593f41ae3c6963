import TypeGraph.Text.Hex

/-!
# UTF-8

A sequence of bytes is read one byte at a time.  Between characters the next byte must start one;
inside a character the next byte must lie in the range that the bytes before it leave open, which
excludes overlong forms, surrogates and code points above the last.  A fault names the bytes of the
character that was begun and the reason it could not be completed.
-/

namespace TypeGraph
namespace Text

/-- Why a sequence of bytes is not UTF-8. -/
inductive Utf8Reason where
  | invalidStart
  | invalidContinuation
  | unexpectedEnd
  deriving DecidableEq, Repr

/-- The wording of a reason. -/
def Utf8Reason.message : Utf8Reason → String
  | .invalidStart => "invalid start byte"
  | .invalidContinuation => "invalid continuation byte"
  | .unexpectedEnd => "unexpected end of data"

/-- A fault in a sequence of bytes: the first byte of the faulty character, how many of its bytes
were read, and the position of the first of them. -/
structure Utf8Fault where
  first : UInt8
  count : Nat
  position : Nat
  reason : Utf8Reason
  deriving DecidableEq, Repr

/-- The wording of a fault. -/
def Utf8Fault.message (fault : Utf8Fault) : String :=
  let place :=
    if fault.count = 1 then
      let byte := String.ofList (hexDigits 2 fault.first.toNat)
      s!"byte 0x{byte} in position {fault.position}"
    else
      s!"bytes in position {fault.position}-{fault.position + fault.count - 1}"
  s!"'utf-8' codec can't decode {place}: {fault.reason.message}"

/-- A character that has been begun: its first byte, the bytes read, the bytes still owed, the
range of the next one, and the bits of the code point so far. -/
structure Utf8Partial where
  first : UInt8
  count : Nat
  owed : Nat
  low : UInt8
  high : UInt8
  code : Nat

/-- What the first byte of a character of several bytes leaves open. -/
def Utf8Partial.start? (byte : UInt8) : Option Utf8Partial :=
  if 0xC2 ≤ byte ∧ byte ≤ 0xDF then some ⟨byte, 1, 1, 0x80, 0xBF, byte.toNat % 32⟩
  else if byte = 0xE0 then some ⟨byte, 1, 2, 0xA0, 0xBF, 0⟩
  else if byte = 0xED then some ⟨byte, 1, 2, 0x80, 0x9F, 13⟩
  else if 0xE1 ≤ byte ∧ byte ≤ 0xEF then some ⟨byte, 1, 2, 0x80, 0xBF, byte.toNat % 16⟩
  else if byte = 0xF0 then some ⟨byte, 1, 3, 0x90, 0xBF, 0⟩
  else if byte = 0xF4 then some ⟨byte, 1, 3, 0x80, 0x8F, 4⟩
  else if 0xF1 ≤ byte ∧ byte ≤ 0xF3 then some ⟨byte, 1, 3, 0x80, 0xBF, byte.toNat % 8⟩
  else none

/-- The fault of a character that breaks off before `position`. -/
def Utf8Partial.fault (p : Utf8Partial) (position : Nat) (reason : Utf8Reason) : Utf8Fault :=
  ⟨p.first, p.count, position - p.count, reason⟩

/-- The characters read so far, in reverse order, followed by those of the bytes from `position`
on; `pending` is an unfinished character. -/
def utf8Chars
    (read : List Char)
    (position : Nat) :
    (pending : Option Utf8Partial) → List UInt8 → Except Utf8Fault (List Char)
  | none, [] => .ok read.reverse
  | some p, [] => .error (p.fault position .unexpectedEnd)
  | none, byte :: rest =>
      if byte < 0x80 then
        utf8Chars (Char.ofNat byte.toNat :: read) (position + 1) none rest
      else
        match Utf8Partial.start? byte with
        | none => .error ⟨byte, 1, position, .invalidStart⟩
        | some p => utf8Chars read (position + 1) (some p) rest
  | some p, byte :: rest =>
      if byte < p.low ∨ p.high < byte then .error (p.fault position .invalidContinuation)
      else
        let code := p.code * 64 + byte.toNat % 64
        if p.owed = 1 then
          utf8Chars (Char.ofNat code :: read) (position + 1) none rest
        else
          utf8Chars read (position + 1)
            (some ⟨p.first, p.count + 1, p.owed - 1, 0x80, 0xBF, code⟩) rest

/-- The text of a sequence of bytes. -/
def ofUtf8 (bytes : List UInt8) : Except Utf8Fault String :=
  (utf8Chars [] 0 none bytes).map String.ofList

/-- The bytes of a text. -/
def toUtf8 (text : String) : List UInt8 :=
  text.toUTF8.toList

end Text
end TypeGraph
