import TypeGraph.TypeRef.Token

/-!
# Phrases of a compact type reference

A phrase is what the tokens of a compact reference say before any name is looked up.  Tokens are
read by a machine with a stack: each level is a bracket that is still open, with the members of the
union inside it that are complete, and the mode says what the tokens since the last member form.
Every token either moves the machine on or is refused at once, so the first token that no reference
can go on with is the one that is reported.

The grammar is

```text
union   := postfix ("|" postfix)*
postfix := atom ("[" "]")*
atom    := NAME "<" union ("," union)? ">" | NAME | "(" union ")"
```

**Results.**
* `Phrase.ofMembers_singleton`: a union of one member is that member.
-/

namespace TypeGraph
namespace TypeRef

/-- What the tokens of a reference say. -/
inductive Phrase where
  | name (text : String)
  | generic (head : String) (arguments : List Phrase)
  | array (element : Phrase)
  | union (members : List Phrase)

namespace Phrase

/-- The phrase of the members between two brackets; one member stands for itself. -/
def ofMembers : List Phrase → Phrase
  | [member] => member
  | members => .union members

/-- A union of one member is that member. -/
@[simp] theorem ofMembers_singleton (p : Phrase) : ofMembers [p] = p := rfl

end Phrase

/-- The bracket that opened a level: none, a parenthesis, or the angle bracket of a generic before
its first or its second argument. -/
inductive Opening where
  | top
  | group
  | first (head : String)
  | second (head : String) (argument : Phrase)

/-- An open bracket and the members after it. -/
structure Level where
  opening : Opening
  members : List Phrase

/-- What the tokens since the last complete member form. -/
inductive Mode where
  | wanting
  | named (text : String)
  | complete (phrase : Phrase)
  | bracket (phrase : Phrase)

/-- The state of the machine: the innermost level, the levels around it, and the mode. -/
structure Reading where
  level : Level
  outer : List Level
  mode : Mode

namespace Reading

/-- Nothing has been read. -/
def start : Reading :=
  ⟨⟨.top, []⟩, [], .wanting⟩

/-- Open a bracket. -/
def push (r : Reading) (opening : Opening) : Reading :=
  ⟨⟨opening, []⟩, r.level :: r.outer, .wanting⟩

/-- Close the innermost bracket around a complete phrase. -/
def pop? (r : Reading) (phrase : Phrase) : Option Reading :=
  match r.outer with
  | [] => none
  | level :: outer => some ⟨level, outer, .complete phrase⟩

/-- The union of the members of the innermost level and one more. -/
def closed (r : Reading) (phrase : Phrase) : Phrase :=
  .ofMembers (r.level.members ++ [phrase])

/-- A token after a phrase that may end a member. -/
def extend? (r : Reading) (phrase : Phrase) (token : Token) : Option Reading :=
  match token, r.level.opening with
  | .openBracket, _ => some { r with mode := .bracket phrase }
  | .bar, opening => some ⟨⟨opening, r.level.members ++ [phrase]⟩, r.outer, .wanting⟩
  | .closeParen, .group => r.pop? (r.closed phrase)
  | .comma, .first head => some ⟨⟨.second head (r.closed phrase), []⟩, r.outer, .wanting⟩
  | .greater, .first head => r.pop? (.generic head [r.closed phrase])
  | .greater, .second head argument => r.pop? (.generic head [argument, r.closed phrase])
  | _, _ => none

/-- One token, or nothing when no reference goes on with it. -/
def step? (r : Reading) (token : Token) : Option Reading :=
  match r.mode with
  | .wanting =>
      match token with
      | .name text => some { r with mode := .named text }
      | .openParen => some (r.push .group)
      | _ => none
  | .named text =>
      match token with
      | .less => some (r.push (.first text))
      | _ => r.extend? (.name text) token
  | .complete phrase => r.extend? phrase token
  | .bracket phrase =>
      match token with
      | .closeBracket => some { r with mode := .complete (.array phrase) }
      | _ => none

/-- The phrase when the tokens are used up, if they form a reference. -/
def finish? (r : Reading) : Option Phrase :=
  match r.level.opening, r.mode with
  | .top, .named text => some (r.closed (.name text))
  | .top, .complete phrase => some (r.closed phrase)
  | _, _ => none

end Reading

/-- Where the tokens of a text stop being a reference. -/
inductive Misplaced where
  | token (column : Nat)
  | character (column : Nat)
  deriving DecidableEq, Repr

/-- The phrase of a list of tokens that is followed by the end of the text or by a character where
no token starts.  A text that ends too early is faulted at its last token, `last`. -/
def phraseOf (r : Reading) (last : Nat) (stray : Option Nat) :
    List Placed → Except Misplaced Phrase
  | [] =>
      match stray, r.finish? with
      | some column, _ => .error (.character column)
      | none, some phrase => .ok phrase
      | none, none => .error (.token last)
  | placed :: rest =>
      match r.step? placed.token with
      | none => .error (.token placed.column)
      | some next => phraseOf next placed.column stray rest

/-- The phrase of a text. -/
def phrase (text : String) : Except Misplaced Phrase :=
  let (found, stray) := tokens text
  phraseOf .start 1 stray found

end TypeRef
end TypeGraph
