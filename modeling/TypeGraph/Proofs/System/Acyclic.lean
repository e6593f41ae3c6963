import Mathlib
import TypeGraph.Proofs.Inheritance.Acyclic
import TypeGraph.Proofs.Registry.Ordered
import TypeGraph.Proofs.System.Alike
import TypeGraph.Proofs.System.References
import TypeGraph.Proofs.System.Together

/-!
# Orders on what is committed

A load looks at its own batch for cycles, and lets pass whatever is committed already.  All the same
there is no cycle among everything that is committed, of dependencies or of inheritance, through
whichever loads it might go: at every moment the catalog is coherent as a whole.

**Results.**
* `TypeSystem.inheritance_acyclic`: no committed type inherits from itself.
* `TypeSystem.dependencies_committed_first`: an assembly is committed after what it depends on.
-/

namespace TypeGraph
namespace TypeSystem

/-- Sessions and whatever goes on between their actions reach moments; and at every moment that is
reached no chain of declared bases, no chain of listed interfaces and no chain of both, through whatever
assemblies are committed, leads from a full name back to itself. -/
theorem inheritance_acyclic :
    (∀ actions, (after actions).moment.Reached) ∧
    ∀ s : Moment, s.Reached → ∀ fqn,
      ¬ Relation.TransGen (BaseLink s.registry.catalog.Has) fqn fqn ∧
      ¬ Relation.TransGen (InterfaceLink s.registry.catalog.Has) fqn fqn ∧
      ¬ Relation.TransGen (Inherits s.registry.catalog.Has) fqn fqn := by
  refine ⟨reached_after, fun s hs fqn => ?_⟩
  have hc := hs.orderly.coherent
  exact ⟨hc.not_base_cycle fqn, hc.not_interface_cycle fqn, hc.not_inherits_cycle fqn⟩

/-- The class of an application has a base in a library, which therefore has it nowhere above. -/
theorem inheritance_acyclic_of_derivedClass :
    let s := after [.load (AnswerTable.resolver derivedClass) none "lib",
      .load (AnswerTable.resolver derivedClass) none "app"]
    s.moment.Reached ∧
      BaseLink s.catalog.Has "app.Widget" "lib.Part" ∧
      ¬ Relation.ReflTransGen (BaseLink s.catalog.Has) "lib.Part" "app.Widget" := by
  intro s
  have hwidget : (s.catalog.type? "app.Widget").map TypeDef.base = some (some "lib.Part") := by
    cbv
  obtain ⟨t, hfind, hbase⟩ := Option.map_eq_some_iff.1 hwidget
  have hfqn : t.fqn = "app.Widget" := by simpa using List.find?_some hfind
  have ht : t ∈ s.catalog.types := List.mem_of_find?_eq_some hfind
  obtain ⟨m, hm, htm⟩ := (performAll_atRest _).coherent.mem_types_iff.1 ht
  have hlink : BaseLink s.catalog.Has "app.Widget" "lib.Part" := ⟨m, hm, t, htm, hfqn, hbase⟩
  obtain ⟨hreached, hacyclic⟩ := inheritance_acyclic
  obtain ⟨hnever, -⟩ := hacyclic s.moment (hreached _) "app.Widget"
  exact ⟨hreached _, hlink, fun hback => hnever (.head' hlink hback)⟩

/-- Sessions and whatever goes on between their actions reach moments; and at every moment that is
reached each dependency that a committed assembly declares is the name of an assembly at a smaller
position, everything that a committed assembly depends on, directly or not, is committed, and no path of
dependencies leads from a name back to itself. -/
theorem dependencies_committed_first :
    (∀ actions, (after actions).moment.Reached) ∧
    ∀ s : Moment, s.Reached →
      (∀ (i : Nat) (m : Manifest), s.registry.catalog.assemblies[i]? = some m →
        ∀ name ∈ m.dependencyNames,
          ∃ j < i, ∃ n : Manifest, s.registry.catalog.assemblies[j]? = some n ∧ n.name = name) ∧
      (∀ m ∈ s.registry.catalog.assemblies, ∀ name,
        Relation.ReflTransGen (Depends s.registry.catalog.Has) m.name name →
          ∃ n ∈ s.registry.catalog.assemblies, n.name = name) ∧
      ∀ name, ¬ Relation.TransGen (Depends s.registry.catalog.Has) name name := by
  refine ⟨reached_after, fun s hs => ?_⟩
  have hc := hs.orderly.coherent
  exact ⟨fun i m hi name hname => hc.ordered.earlier hi hname, hc.sound.closed, hc.not_depends_cycle⟩

/-- The application is asked for first, and is committed after the library all the same. -/
theorem dependencies_committed_first_of_application :
    let s := after [.loadTogether (AnswerTable.resolver applicationAndLibrary) none
      [["app"], ["lib"]]]
    s.moment.Reached ∧
      ∃ m : Manifest, s.catalog.assemblies[1]? = some m ∧ m.name = "app" ∧
        m.dependencyNames = ["lib"] ∧
        (∃ j < 1, ∃ n : Manifest, s.catalog.assemblies[j]? = some n ∧ n.name = "lib") ∧
        ¬ Relation.TransGen (Depends s.catalog.Has) "app" "app" := by
  intro s
  have happ : (s.catalog.assemblies[1]?).map (fun m => (m.name, m.dependencyNames)) =
      some ("app", ["lib"]) := by
    cbv
  obtain ⟨m, hm, hdeclared⟩ := Option.map_eq_some_iff.1 happ
  obtain ⟨hname, hdependencies⟩ := Prod.mk.inj hdeclared
  obtain ⟨hreached, hordered⟩ := dependencies_committed_first
  obtain ⟨hearlier, -, hacyclic⟩ := hordered s.moment (hreached _)
  exact ⟨hreached _, m, hm, hname, hdependencies,
    hearlier 1 m hm "lib" (hdependencies ▸ List.mem_singleton_self "lib"), hacyclic "app"⟩

end TypeSystem
end TypeGraph
