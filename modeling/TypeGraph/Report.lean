import TypeGraph.Json.Display

/-!
# Failure reports

Every failure of a load or a look-up is reported with its class, a message and what is known of the
assembly, the type, the offending reference and the path of a cycle.  A report shows on one line, or
as an object.  What was looked up may be any value, so the assembly and the type are values; null
stands for what is not known.
-/

namespace TypeGraph

/-- The classes of failures. -/
inductive FailureClass where
  | general
  | resolution
  | malformed
  | inheritanceCycle
  | duplicateFqn
  | unresolvedReference
  | dependencyCycle
  | notFound
  deriving DecidableEq, Repr

/-- The stable code of a class. -/
def FailureClass.code : FailureClass → String
  | .general => "reflect-error"
  | .resolution => "manifest-resolution"
  | .malformed => "malformed-manifest"
  | .inheritanceCycle => "inheritance-cycle"
  | .duplicateFqn => "duplicate-fqn"
  | .unresolvedReference => "unresolved-reference"
  | .dependencyCycle => "dependency-cycle"
  | .notFound => "not-found"

/-- The report of a failure. -/
structure Report where
  failureClass : FailureClass
  message : String
  assembly : Json
  fqn : Json
  reference : Json
  path : Option (List String)

namespace Report

/-- A labelled part of the line, left out when there is nothing to show. -/
def part (label : String) (value : Json) : List String :=
  if value.isNothing then [] else [label ++ "=" ++ value.display]

/-- The cycle of the line, left out when there is none. -/
def pathPart : Option (List String) → List String
  | some (first :: rest) => ["path=" ++ " -> ".intercalate (first :: rest)]
  | _ => []

/-- The report on one line. -/
def line (r : Report) : String :=
  let head := s!"[{r.failureClass.code}] {r.message}"
  " ".intercalate (head ::
    (part "assembly" r.assembly ++ part "fqn" r.fqn ++ part "reference" r.reference ++
      pathPart r.path))

/-- The path of a report as a value. -/
def pathJson : Option (List String) → Json
  | some names => .array (names.map .string)
  | none => .null

/-- The report as an object. -/
def toJson (r : Report) : Json :=
  .object
    [("reason_code", .string r.failureClass.code), ("message", .string r.message),
     ("assembly", r.assembly), ("fqn", r.fqn), ("reference", r.reference),
     ("path", pathJson r.path)]

end Report
end TypeGraph
