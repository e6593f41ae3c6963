/-!
# Paths

A path is relative, or starts at the root with one slash or with exactly two; then come its names.
Empty names and single dots are dropped when a path is read, while double dots stay.

**Results.**
* `Path.join_assoc`: joining paths is associative.
* `Path.join_absolute`: an absolute path is not moved by joining.
-/

namespace TypeGraph

/-- Where a path starts. -/
inductive PathStart where
  | relative
  | single
  | double
  deriving DecidableEq, Repr

/-- The slashes at the front of a path. -/
def PathStart.text : PathStart → String
  | .relative => ""
  | .single => "/"
  | .double => "//"

/-- A path without empty names and single dots. -/
structure Path where
  start : PathStart
  names : List String
  deriving DecidableEq, Repr

/-- The pieces of a text between its slashes. -/
def pieces : List Char → List (List Char)
  | [] => [[]]
  | c :: rest =>
      match pieces rest with
      | [] => [[c]]
      | piece :: more => if c = '/' then [] :: piece :: more else (c :: piece) :: more

namespace Path

/-- Where the path of a text starts: three slashes and more count as one. -/
def startOf : List Char → PathStart
  | '/' :: '/' :: '/' :: _ => .single
  | '/' :: '/' :: _ => .double
  | '/' :: _ => .single
  | _ => .relative

/-- The path of a text. -/
def ofText (text : String) : Path :=
  let names := (pieces text.toList).filter fun piece => !piece.isEmpty && piece != ['.']
  ⟨startOf text.toList, names.map String.ofList⟩

/-- The path starts at the root. -/
def isAbsolute (p : Path) : Bool :=
  p.start != .relative

/-- The text of a path; the empty path is a dot. -/
def text (p : Path) : String :=
  match p.start, p.names with
  | .relative, [] => "."
  | start, names => start.text ++ "/".intercalate names

/-- A path seen from another one. -/
def join (base p : Path) : Path :=
  if p.isAbsolute then p else ⟨base.start, base.names ++ p.names⟩

/-- A text as a path seen from another one. -/
def child (base : Path) (name : String) : Path :=
  base.join (ofText name)

/-- The path without its last name. -/
def parent (p : Path) : Path :=
  ⟨p.start, p.names.dropLast⟩

/-- An absolute path is not moved by joining. -/
theorem join_absolute
    (base : Path)
    {p : Path}
    (h : p.isAbsolute = true) :
    base.join p = p := by
  simp [join, h]

/-- Joining paths is associative. -/
theorem join_assoc
    (a b c : Path) :
    (a.join b).join c = a.join (b.join c) := by
  by_cases hc : c.isAbsolute = true
  · simp [join, hc]
  · by_cases hb : b.isAbsolute = true
    · have hb' : isAbsolute ⟨b.start, b.names ++ c.names⟩ = true := hb
      simp [join, hc, hb, hb']
    · have hb' : ¬ isAbsolute ⟨b.start, b.names ++ c.names⟩ = true := hb
      simp [join, hc, hb, hb']

end Path
end TypeGraph
