/-!
# Tokens of a compact type reference

White space is space, tab, form feed, carriage return and line feed.  A name is an optional scope
`@scope/` followed by segments of letters, digits, underscores and hyphens with single dots between
them, and a token takes the longest name there is.  A token is placed by the column of its first
character; columns count from one and start again after a line feed.

**Results.**
* `nameLength_pos_of_isNameChar`: a name starts wherever a segment may start.
-/

namespace TypeGraph
namespace TypeRef

/-- A token of the compact spelling. -/
inductive Token where
  | name (text : String)
  | less
  | greater
  | comma
  | bar
  | openParen
  | closeParen
  | openBracket
  | closeBracket
  deriving DecidableEq, Repr

/-- A token and the column of its first character. -/
structure Placed where
  token : Token
  column : Nat
  deriving DecidableEq, Repr

/-- White space between tokens. -/
def isBlank (c : Char) : Bool :=
  c == ' ' || c == '\t' || c == '\x0c' || c == '\r' || c == '\n'

/-- A character of a segment of a name. -/
def isNameChar (c : Char) : Bool :=
  c.isAlphanum || c == '_' || c == '-'

/-- A character of a scope. -/
def isScopeChar (c : Char) : Bool :=
  isNameChar c || c == '.'

/-- A segment starts here. -/
def startsSegment : List Char → Bool
  | c :: _ => isNameChar c
  | [] => false

/-- How much of a text goes on with the name before it: characters of the segment, and dots that
start another segment. -/
def nameTail : List Char → Nat
  | [] => 0
  | c :: rest =>
      if isNameChar c then nameTail rest + 1
      else if c = '.' ∧ startsSegment rest = true then nameTail rest + 1
      else 0

/-- The length of the segments at the front of a text. -/
def segmentsLength (text : List Char) : Nat :=
  if startsSegment text then nameTail text else 0

/-- The length of the scope at the front of a text, with its mark and its slash. -/
def scopeLength : List Char → Nat
  | '@' :: rest =>
      let scope := rest.takeWhile isScopeChar
      match scope, rest.drop scope.length with
      | _ :: _, '/' :: _ => scope.length + 2
      | _, _ => 0
  | _ => 0

/-- The length of the longest name at the front of a text; zero when there is none. -/
def nameLength (text : List Char) : Nat :=
  let scope := scopeLength text
  let segments := segmentsLength (text.drop scope)
  if segments = 0 then 0 else scope + segments

/-- A name starts wherever a segment may start. -/
theorem nameLength_pos_of_isNameChar
    {c : Char}
    (rest : List Char)
    (h : isNameChar c = true) :
    0 < nameLength (c :: rest) := by
  have hat : c ≠ '@' := by rintro rfl; revert h; decide
  have hscope : scopeLength (c :: rest) = 0 := by
    unfold scopeLength
    split
    · rename_i heq
      exact absurd (List.cons.inj heq).1 hat
    · rfl
  simp [nameLength, hscope, segmentsLength, startsSegment, nameTail, h]

/-- The token of a single character. -/
def markToken? (c : Char) : Option Token :=
  if c = '<' then some .less
  else if c = '>' then some .greater
  else if c = ',' then some .comma
  else if c = '|' then some .bar
  else if c = '(' then some .openParen
  else if c = ')' then some .closeParen
  else if c = '[' then some .openBracket
  else if c = ']' then some .closeBracket
  else none

/-- The token at the front of `c :: rest`, and how many characters of `rest` belong to it. -/
def tokenAt? (c : Char) (rest : List Char) : Option (Token × Nat) :=
  match markToken? c with
  | some token => some (token, 0)
  | none =>
      let length := nameLength (c :: rest)
      if length = 0 then none
      else some (.name (String.ofList ((c :: rest).take length)), length - 1)

/-- The tokens of a text from `column` on, and the column of the first character where no token
starts.  The first `skip` characters belong to the token before, and `found` holds the tokens so far
in reverse order. -/
def scan (found : List Placed) :
    (skip column : Nat) → List Char → List Placed × Option Nat
  | _, _, [] => (found.reverse, none)
  | skip + 1, column, _ :: rest => scan found skip (column + 1) rest
  | 0, column, c :: rest =>
      if isBlank c then scan found 0 (if c = '\n' then 1 else column + 1) rest
      else
        match tokenAt? c rest with
        | none => (found.reverse, some column)
        | some (token, length) => scan (⟨token, column⟩ :: found) length (column + 1) rest

/-- The tokens of a text, up to the first character where none starts. -/
def tokens (text : String) : List Placed × Option Nat :=
  scan [] 0 1 text.toList

end TypeRef
end TypeGraph
