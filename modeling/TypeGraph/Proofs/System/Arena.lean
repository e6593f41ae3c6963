import Mathlib
import TypeGraph.Proofs.System.Naming
import TypeGraph.Resolver.Table

/-!
# An arena that only grows

A commit writes into tables that would replace what is there without a word.  It never comes to that: a
batch that is linked is new to the catalog, in its names and in its full names, at the very moment when
it is committed.  So every name and every full name stands for one thing for ever, and what a load or a
promotion has made a root stays one.

**Results.**
* `TypeSystem.registry_arena`: what is committed at a moment, and at those after it.
-/

namespace TypeGraph
namespace TypeSystem

/-- At every moment that is reached
* the catalog is an arena: its types are those of its assemblies, in the order of the commits and of the
  declarations, no two of them share a full name, which starts with the name of the assembly and a dot,
  and leads to the type in the catalog and in its own assembly and to a failure in any other one;
* the moment has a chronicle, and by each of them the roots are, in the order of the commits, the
  committed assemblies that a load has been asked for that has succeeded, or that were promoted;
* the assemblies and the types stay where they are, at the beginning of the lists of all later moments.

Sessions reach such moments, each of their actions is a sequence of steps, and their roots are the
committed assemblies that one of their actions has made roots. -/
theorem registry_arena :
    (∀ s : Moment, s.Reached →
      s.registry.catalog.Arena ∧
      (∃ us namings, us.map Underway.load = s.pending ∧ Chronicle s.registry us namings) ∧
      (∀ us namings, us.map Underway.load = s.pending → Chronicle s.registry us namings →
        ∀ m, m ∈ s.registry.catalog.roots ↔
          m ∈ s.registry.catalog.assemblies ∧ ∃ naming ∈ namings, naming.Names m.name) ∧
      ∀ s', Relation.ReflTransGen Moment.Step s s' →
        s.registry.catalog.assemblies <+: s'.registry.catalog.assemblies ∧
        s.registry.catalog.types <+: s'.registry.catalog.types) ∧
    ∀ actions,
      (after actions).moment.Reached ∧
      (∀ action, Relation.ReflTransGen Moment.Step (after actions).moment
        ((after actions).perform action).1.moment) ∧
      ∀ m, m ∈ (after actions).catalog.roots ↔
        m ∈ (after actions).catalog.assemblies ∧
          ∃ earlier action later, actions = earlier ++ action :: later ∧
            (after earlier).MakesRoot action m.name := by
  refine ⟨fun s hs => ⟨?_, hs.chronicle, ?_, ?_⟩, fun actions => ⟨reached_after actions, ?_, ?_⟩⟩
  · obtain ⟨us, namings, -, hchronicle⟩ := hs.chronicle
    exact hs.orderly.coherent.toIndexed.arena hchronicle.recorded.decoded
  · intro us namings _ hchronicle m
    rw [Catalog.mem_roots_iff, hchronicle.recorded.named]
  · intro s' hsteps
    have hbegins := hs.orderly.extends hsteps
    exact ⟨hbegins.assemblies, hbegins.types⟩
  · exact (performAll_atRest actions).perform_steps
  · exact fun m => mem_roots_after_iff actions

/-- A table where an application has another identifier than its name, and a library that it depends
on. -/
def aliasedApplication : AnswerTable :=
  [("entry", .source (.value (.object [("name", .string "app"), ("version", .string "1"),
    ("dependencies", .array [.string "lib"]),
    ("types", .object [("app.Main", .object [("kind", .string "class")])])]))),
   ("lib", .source (.value (.object [("name", .string "lib"), ("version", .string "1"),
    ("types", .object [("lib.Part", .object [("kind", .string "class")])])])))]

/-- The application is loaded, and the library that came with it is promoted. -/
def aliasedActions : List Action :=
  [.load (AnswerTable.resolver aliasedApplication) none "entry", .promoteRoot "lib"]

/-- The application is a root by its load, though it was asked for under another name; its type is found
in the catalog and in itself, and not in the library. -/
theorem registry_arena_of_aliasedApplication :
    (after aliasedActions).moment.Reached ∧
      ∃ lib app, (after aliasedActions).catalog.assemblies = [lib, app] ∧ app.name = "app" ∧
        (∃ earlier action later, aliasedActions = earlier ++ action :: later ∧
          (after earlier).MakesRoot action "app") ∧
        ∃ t ∈ app.types, t.fqn = "app.Main" ∧
          (after aliasedActions).catalog.findType (.string "app.Main") = .ok t ∧
          app.findType (.string "app.Main") = .ok t ∧
          ∃ failure, lib.findType (.string "app.Main") = .error failure ∧ failure.NotFound := by
  have hcommitted : ((after aliasedActions).catalog.assemblies.map
      (fun m => (m.name, m.types.map TypeDef.fqn)), (after aliasedActions).catalog.rootNames) =
      ([("lib", ["lib.Part"]), ("app", ["app.Main"])], ["app", "lib"]) := by
    cbv
  obtain ⟨hassemblies, hroots⟩ := Prod.mk.inj hcommitted
  obtain ⟨lib, rest, hcatalog, hlib, hrest⟩ := List.map_eq_cons_iff.1 hassemblies
  obtain ⟨app, last, rfl, happ, hlast⟩ := List.map_eq_cons_iff.1 hrest
  obtain rfl := List.map_eq_nil_iff.1 hlast
  obtain ⟨hname, htypes⟩ := Prod.mk.inj happ
  obtain ⟨t, ht, hfqn⟩ := List.map_eq_singleton_iff.1 htypes
  have htapp : t ∈ app.types := by simp [ht]
  have hne : lib ≠ app := by
    rintro rfl
    rw [(Prod.mk.inj hlib).1] at hname
    simp at hname
  obtain ⟨hmoments, hsessions⟩ := registry_arena
  obtain ⟨hreached, -, hmade⟩ := hsessions aliasedActions
  obtain ⟨harena, -⟩ := hmoments _ hreached
  have hroot : app ∈ (after aliasedActions).catalog.roots :=
    Catalog.mem_roots_iff.2 ⟨by simp [hcatalog], by simp [hroots, hname]⟩
  obtain ⟨hmem, hnamed⟩ := (hmade app).1 hroot
  rw [hname] at hnamed
  obtain ⟨hfound, hown, hother⟩ := harena.found app hmem t htapp
  rw [hfqn] at hfound hown hother
  have hlibmem : lib ∈ (after aliasedActions).catalog.assemblies := by simp [hcatalog]
  exact ⟨hreached, lib, app, hcatalog, hname, hnamed, t, htapp, hfqn, hfound, hown,
    hother lib hlibmem hne⟩

end TypeSystem
end TypeGraph
