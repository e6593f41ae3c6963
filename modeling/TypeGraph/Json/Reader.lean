import TypeGraph.Json.Digits
import TypeGraph.Text.Digit
import TypeGraph.Text.Half

/-!
# Reading a document

A text is first cut into lexemes, each placed by the text from its first character on, and the
lexemes are then read by a machine whose state is what may come next and which arrays and objects
are open.  Both passes are structural: the first on the characters, the second on the lexemes.

A fault is the first one in reading order.  Cutting stops at a lexeme that cannot be completed, and
such a lexeme counts as a fault of its own only where a text was allowed; elsewhere the machine
reports what it expected instead.  So it is with an integer of too many digits where a value was
allowed.

Besides the usual literals a number may be `NaN`, `Infinity` or `-Infinity`.  White space is space,
tab, line feed and carriage return, and control characters inside a text are refused.
-/

namespace TypeGraph
namespace Json

/-- Why a text is not a document. -/
inductive FaultKind where
  | byteOrderMark
  | expectedValue
  | expectedName
  | expectedColon
  | expectedComma
  | extraData
  | unterminated
  | controlCharacter
  | badEscape
  | badCodeUnit
  | tooManyDigits (digits : Nat)
  deriving DecidableEq, Repr

/-- The wording of a fault. -/
def FaultKind.message : FaultKind → String
  | .byteOrderMark => "Unexpected UTF-8 BOM (decode using utf-8-sig)"
  | .expectedValue => "Expecting value"
  | .expectedName => "Expecting property name enclosed in double quotes"
  | .expectedColon => "Expecting ':' delimiter"
  | .expectedComma => "Expecting ',' delimiter"
  | .extraData => "Extra data"
  | .unterminated => "Unterminated string starting at"
  | .controlCharacter => "Invalid control character at"
  | .badEscape => "Invalid \\escape"
  | .badCodeUnit => "Invalid \\uXXXX escape"
  | .tooManyDigits digits => (DigitFault.read digits).message

/-- A fault and the line it is on, counted from one. -/
structure ReadFault where
  kind : FaultKind
  line : Nat
  deriving DecidableEq, Repr

/-- A fault and the text from its place on. -/
structure PlacedFault where
  kind : FaultKind
  rest : List Char

section Lexemes

/-- A piece of a document: a punctuation mark, a text, another atomic value, an integer with too many
digits, a text that cannot be completed, or a character that starts nothing. -/
inductive Lexeme where
  | mark (c : Char)
  | text (value : String)
  | scalar (value : Json)
  | long (digits : Nat)
  | broken (fault : PlacedFault)
  | stray

/-- A lexeme and the text from its first character on. -/
structure Placed where
  lexeme : Lexeme
  rest : List Char

/-- White space between lexemes. -/
def isBlank (c : Char) : Bool :=
  c == ' ' || c == '\t' || c == '\n' || c == '\r'

/-- The character named by a letter after a backslash. -/
def shortEscape? (c : Char) : Option Char :=
  if c = '\x22' then some '\x22'
  else if c = '\x5c' then some '\x5c'
  else if c = '/' then some '/'
  else if c = 'b' then some '\x08'
  else if c = 'f' then some '\x0c'
  else if c = 'n' then some '\n'
  else if c = 'r' then some '\r'
  else if c = 't' then some '\t'
  else none

/-- The character of a code unit; half of a pair is held as such. -/
def unitChar (unit : Nat) : Char :=
  if Text.isLeading unit || Text.isTrailing unit then Text.halfChar unit else Char.ofNat unit

/-- The character of a pair of code units. -/
def pairChar (leading trailing : Nat) : Char :=
  Char.ofNat (0x10000 + (leading - 0xD800) * 0x400 + (trailing - 0xDC00))

/-- The second unit of a pair, written as an escape at the front of a text that goes on after it. -/
def trailingUnit? : List Char → Except Unit (Option Nat)
  | '\x5c' :: 'u' :: a :: b :: c :: d :: _ :: _ =>
      match Text.ofHex? [a, b, c, d] with
      | none => .error ()
      | some unit => .ok (if Text.isTrailing unit then some unit else none)
  | _ => .ok none

/-- The character of the escape that follows a backslash, and how many characters it takes.  A fault
without a place lies at the opening quotation mark. -/
def escape? (after : List Char) : Except (FaultKind × Option (List Char)) (Char × Nat) :=
  match after with
  | [] => .error (.unterminated, none)
  | 'u' :: a :: b :: c :: d :: next :: more =>
      match Text.ofHex? [a, b, c, d] with
      | none => .error (.badCodeUnit, some after)
      | some unit =>
          if Text.isLeading unit then
            match trailingUnit? (next :: more) with
            | .error _ => .error (.badCodeUnit, some (next :: more))
            | .ok none => .ok (unitChar unit, 5)
            | .ok (some second) => .ok (pairChar unit second, 11)
          else .ok (unitChar unit, 5)
  | 'u' :: _ => .error (.badCodeUnit, some after)
  | c :: _ =>
      match shortEscape? c with
      | none => .error (.badEscape, some after)
      | some value => .ok (value, 1)

/-- The rest of a text after its opening quotation mark: `skip` characters belong to an escape that
is already read, `read` holds the characters in reverse order and `count` the length so far.  The
answer is the text and its length with the closing quotation mark. -/
def scanText
    (read : List Char)
    (count : Nat) :
    (skip : Nat) → List Char → Except (FaultKind × Option (List Char)) (String × Nat)
  | _, [] => .error (.unterminated, none)
  | skip + 1, _ :: rest => scanText read (count + 1) skip rest
  | 0, c :: rest =>
      if c = '\x22' then .ok (String.ofList read.reverse, count + 1)
      else if c = '\x5c' then
        match escape? rest with
        | .error fault => .error fault
        | .ok (value, taken) => scanText (value :: read) (count + 1) taken rest
      else if c < ' ' then .error (.controlCharacter, some (c :: rest))
      else scanText (c :: read) (count + 1) 0 rest

/-- The digits of the whole part of a number: a lone zero, or a run that starts with another digit. -/
def wholeDigits : List Char → List Char
  | '0' :: _ => ['0']
  | text => text.takeWhile Text.isDigit

/-- The digits after the point, when there is a point with a digit after it. -/
def fractionDigits : List Char → List Char
  | '.' :: rest => rest.takeWhile Text.isDigit
  | _ => []

/-- The exponent of a number and its length, when its mark is followed by a digit. -/
def exponentPart (text : List Char) : Int × Nat :=
  match text with
  | mark :: rest =>
      if mark = 'e' ∨ mark = 'E' then
        let (negative, digits, signs) :=
          match rest with
          | '-' :: more => (true, more.takeWhile Text.isDigit, 1)
          | '+' :: more => (false, more.takeWhile Text.isDigit, 1)
          | more => (false, more.takeWhile Text.isDigit, 0)
        if digits.isEmpty then (0, 0)
        else
          let value : Int := Text.digitsValue digits
          (if negative then -value else value, 1 + signs + digits.length)
      else (0, 0)
  | [] => (0, 0)

/-- The number at the front of a text, and its length. -/
def scanNumber (text : List Char) : Option (Number × Nat) :=
  let (negative, body, signs) :=
    match text with
    | '-' :: rest => (true, rest, 1)
    | rest => (false, rest, 0)
  let whole := wholeDigits body
  let afterWhole := body.drop whole.length
  let fraction := fractionDigits afterWhole
  let fractionLength := if fraction.isEmpty then 0 else fraction.length + 1
  let (power, powerLength) := exponentPart (afterWhole.drop fractionLength)
  if whole.isEmpty then none
  else if fractionLength = 0 ∧ powerLength = 0 then
    let value : Int := Text.digitsValue whole
    some (.int (if negative then -value else value), signs + whole.length)
  else
    some (.real (.ofDecimal negative (Text.digitsValue (whole ++ fraction))
        (power - (fraction.length : Int))),
      signs + whole.length + fractionLength + powerLength)

/-- The literals other than numbers in digits. -/
def literals : List (String × Json) :=
  [("null", .null), ("true", .bool true), ("false", .bool false),
   ("NaN", .number (.real .nan)),
   ("Infinity", .number (.real (.infinite false))),
   ("-Infinity", .number (.real (.infinite true)))]

/-- The literal at the front of a text, and its length. -/
def scanLiteral (text : List Char) : Option (Json × Nat) :=
  literals.findSome? fun (word, value) =>
    if word.toList.isPrefixOf text then some (value, word.length) else none

/-- The lexeme of a number of some length that starts with a character. -/
def numberLexeme (c : Char) (length : Nat) : Number → Lexeme
  | .int value =>
      let digits := if c = '-' then length - 1 else length
      if digits ≤ digitLimit then .scalar (.number (.int value)) else .long digits
  | .real value => .scalar (.number (.real value))

/-- The lexeme at the front of `c :: rest`, and how many characters of `rest` belong to it. -/
def lexemeAt (c : Char) (rest : List Char) : Lexeme × Nat :=
  if c = '\x7b' ∨ c = '\x7d' ∨ c = '[' ∨ c = ']' ∨ c = ':' ∨ c = ',' then (.mark c, 0)
  else if c = '\x22' then
    match scanText [] 0 0 rest with
    | .ok (value, length) => (.text value, length)
    | .error (kind, place) => (.broken ⟨kind, place.getD (c :: rest)⟩, 0)
  else
    match scanLiteral (c :: rest) with
    | some (value, length) => (.scalar value, length - 1)
    | none =>
        match scanNumber (c :: rest) with
        | some (value, length) => (numberLexeme c length value, length - 1)
        | none => (.stray, 0)

/-- The lexemes of a text, up to the first that cannot be completed; `skip` characters belong to the
lexeme before, and `found` holds the lexemes so far in reverse order. -/
def lexemes (found : List Placed) : (skip : Nat) → List Char → List Placed
  | _, [] => found.reverse
  | skip + 1, _ :: rest => lexemes found skip rest
  | 0, c :: rest =>
      if isBlank c then lexemes found 0 rest
      else
        match lexemeAt c rest with
        | (.stray, _) => (⟨.stray, c :: rest⟩ :: found).reverse
        | (.broken fault, _) => (⟨.broken fault, c :: rest⟩ :: found).reverse
        | (lexeme, length) => lexemes (⟨lexeme, c :: rest⟩ :: found) length rest

end Lexemes

section Machine

/-- An array or object that is not closed yet: the items so far in reverse order, or the fields so
far and the name whose value is being read. -/
inductive Opened where
  | array (items : List Json)
  | object (fields : Fields) (name : String)

/-- What may come next. -/
inductive Goal where
  | value
  | firstItem
  | firstName
  | name (fields : Fields)
  | colon (fields : Fields) (name : String)
  | after (value : Json)

/-- The goal after a lexeme that starts a value. -/
def startValue (placed : Placed) : Except PlacedFault Goal :=
  match placed.lexeme with
  | .text value => .ok (.after (.string value))
  | .scalar value => .ok (.after value)
  | .long digits => .error ⟨.tooManyDigits digits, placed.rest⟩
  | .broken fault => .error fault
  | .mark c =>
      if c = '[' then .ok .firstItem
      else if c = '\x7b' then .ok .firstName
      else .error ⟨.expectedValue, placed.rest⟩
  | .stray => .error ⟨.expectedValue, placed.rest⟩

/-- The goal after a lexeme that starts a field. -/
def startField (fields : Fields) (placed : Placed) : Except PlacedFault Goal :=
  match placed.lexeme with
  | .text name => .ok (.colon fields name)
  | .broken fault => .error fault
  | _ => .error ⟨.expectedName, placed.rest⟩

/-- The lexeme is the given punctuation mark. -/
def Placed.isMark (placed : Placed) (c : Char) : Bool :=
  match placed.lexeme with
  | .mark d => d == c
  | _ => false

/-- The goal and the open values after a complete value and the lexeme that follows it. -/
def continueAfter
    (value : Json)
    (placed : Placed) :
    List Opened → Except PlacedFault (Goal × List Opened)
  | [] => .error ⟨.extraData, placed.rest⟩
  | .array items :: outer =>
      if placed.isMark ']' then .ok (.after (.array (value :: items).reverse), outer)
      else if placed.isMark ',' then .ok (.value, .array (value :: items) :: outer)
      else .error ⟨.expectedComma, placed.rest⟩
  | .object fields name :: outer =>
      if placed.isMark '\x7d' then .ok (.after (.object (fields.put name value)), outer)
      else if placed.isMark ',' then .ok (.name (fields.put name value), outer)
      else .error ⟨.expectedComma, placed.rest⟩

/-- One lexeme. -/
def advance (goal : Goal) (opened : List Opened) (placed : Placed) :
    Except PlacedFault (Goal × List Opened) :=
  match goal with
  | .value => (startValue placed).map (·, opened)
  | .firstItem =>
      if placed.isMark ']' then .ok (.after (.array []), opened)
      else (startValue placed).map (·, .array [] :: opened)
  | .firstName =>
      if placed.isMark '\x7d' then .ok (.after (.object []), opened)
      else (startField [] placed).map (·, opened)
  | .name fields => (startField fields placed).map (·, opened)
  | .colon fields name =>
      if placed.isMark ':' then .ok (.value, .object fields name :: opened)
      else .error ⟨.expectedColon, placed.rest⟩
  | .after value => continueAfter value placed opened

/-- The value when the lexemes are used up. -/
def finish : Goal → List Opened → Except PlacedFault Json
  | .after value, [] => .ok value
  | .after _, _ :: _ => .error ⟨.expectedComma, []⟩
  | .value, _ => .error ⟨.expectedValue, []⟩
  | .firstItem, _ => .error ⟨.expectedValue, []⟩
  | .firstName, _ => .error ⟨.expectedName, []⟩
  | .name _, _ => .error ⟨.expectedName, []⟩
  | .colon _ _, _ => .error ⟨.expectedColon, []⟩

/-- The value of a list of lexemes. -/
def ofLexemes (goal : Goal) (opened : List Opened) : List Placed → Except PlacedFault Json
  | [] => finish goal opened
  | placed :: rest =>
      match advance goal opened placed with
      | .error fault => .error fault
      | .ok (next, inner) => ofLexemes next inner rest

end Machine

/-- The line of a place in a text, given the text from that place on. -/
def lineOf (text rest : List Char) : Nat :=
  1 + (text.take (text.length - rest.length)).count '\n'

/-- Read a document. -/
def read (text : String) : Except ReadFault Json :=
  let chars := text.toList
  if chars.head? = some '\uFEFF' then .error ⟨.byteOrderMark, 1⟩
  else
    match ofLexemes .value [] (lexemes [] 0 chars) with
    | .ok value => .ok value
    | .error fault => .error ⟨fault.kind, lineOf chars fault.rest⟩

end Json
end TypeGraph
