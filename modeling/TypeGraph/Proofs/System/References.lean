import Mathlib
import TypeGraph.Proofs.System.Alike
import TypeGraph.Resolver.Table

/-!
# References of committed types

Whatever has been loaded, and in whatever order loads have had their turns, every type that a committed
type mentions is committed, in its own assembly or in one that it depends on.

**Results.**
* `Catalog.Coherent.mention_leads`: where a mention in a coherent catalog leads.
* `TypeSystem.references_resolved`: the references at every moment that is reached.
-/

namespace TypeGraph

/-- In a coherent catalog a mention leads to the type that is looked up under its name. -/
theorem Catalog.Coherent.mention_leads
    {c : Catalog}
    (h : c.Coherent)
    {m : Manifest}
    (hm : m ∈ c.assemblies)
    {t : TypeDef}
    (ht : t ∈ m.types)
    {place : SitePlace}
    {fqn : String}
    (hf : t.Mentions place fqn) :
    ∃ target, c.type? fqn = some target ∧ Fits place target.kind ∧
      ∃ n ∈ c.assemblies, n.name = target.assembly ∧ target ∈ n.types ∧
        Relation.ReflTransGen (Depends c.Has) m.name n.name := by
  obtain ⟨n, hn, hr, target, htarget, he, hfits⟩ := h.sound.resolved m hm t ht place fqn hf
  have hmem : target ∈ c.types := h.mem_types_iff.2 ⟨n, hn, htarget⟩
  exact ⟨target, (Catalog.type?_eq_some_iff h.fqns_nodup).2 ⟨hmem, he⟩, hfits, n, hn,
    (h.owns n hn target htarget).symm, htarget, hr⟩

/-- Sessions and whatever goes on between their actions reach moments.  At every moment that is reached,
in whatever order the loads before it had their turns, whichever of them failed and whatever their
resolvers answered, every committed type `t` is declared by a committed assembly `m`, and every full name
that `t` mentions, at any place and at any depth of a reference, is the name of a committed type `target`
whose assembly `n` is `m` itself or is reached from `m` along the dependencies that committed manifests
declare.  A base is a class, and a listed interface is an interface. -/
theorem TypeSystem.references_resolved :
    (∀ actions, (after actions).moment.Reached) ∧
    ∀ s : Moment, s.Reached → ∀ t ∈ s.registry.catalog.types,
      ∃ m ∈ s.registry.catalog.assemblies, m.name = t.assembly ∧ t ∈ m.types ∧
        ∀ place fqn, t.Mentions place fqn →
          ∃ target, s.registry.catalog.type? fqn = some target ∧
            (∃ n ∈ s.registry.catalog.assemblies, n.name = target.assembly ∧
              target ∈ n.types ∧
              Relation.ReflTransGen (Depends s.registry.catalog.Has) m.name n.name) ∧
            (place = .base → target.kind = .classKind) ∧
            (place = .interfaces → target.kind = .interfaceKind) := by
  refine ⟨reached_after, fun s hs t ht => ?_⟩
  have hc := hs.orderly.coherent
  obtain ⟨m, hm, htm⟩ := hc.mem_types_iff.1 ht
  refine ⟨m, hm, (hc.owns m hm t htm).symm, htm, ?_⟩
  intro place fqn hf
  obtain ⟨target, htarget, ⟨hbase, hinterfaces⟩, hn⟩ := hc.mention_leads hm htm hf
  exact ⟨target, htarget, hn, hbase, hinterfaces⟩

/-- A table with an application whose class has a base in a library. -/
def derivedClass : AnswerTable :=
  [("app", .source (.value (.object [("name", .string "app"), ("version", .string "1"),
    ("dependencies", .array [.string "lib"]),
    ("types", .object [("app.Widget", .object [("kind", .string "class"),
      ("base", .string "lib.Part")])])]))),
   ("lib", .source (.value (.object [("name", .string "lib"), ("version", .string "1"),
    ("types", .object [("lib.Part", .object [("kind", .string "class")])])])))]

/-- The base of the class is found in the library. -/
theorem TypeSystem.references_resolved_of_derivedClass :
    let s := after [.load (AnswerTable.resolver derivedClass) none "app"]
    s.moment.Reached ∧ ∃ t ∈ s.catalog.types, t.fqn = "app.Widget" ∧ t.Mentions .base "lib.Part" ∧
      ∃ m ∈ s.catalog.assemblies, m.name = t.assembly ∧ t ∈ m.types ∧
        ∃ target, s.catalog.type? "lib.Part" = some target ∧ target.kind = .classKind ∧
          ∃ n ∈ s.catalog.assemblies, n.name = target.assembly ∧ target ∈ n.types ∧
            Relation.ReflTransGen (Depends s.catalog.Has) m.name n.name := by
  intro s
  have hwidget : (s.catalog.type? "app.Widget").map TypeDef.base = some (some "lib.Part") := by
    cbv
  obtain ⟨t, hfind, hbase⟩ := Option.map_eq_some_iff.1 hwidget
  have ht : t ∈ s.catalog.types := List.mem_of_find?_eq_some hfind
  have hfqn : t.fqn = "app.Widget" := by simpa using List.find?_some hfind
  have hmentions : t.Mentions .base "lib.Part" := .base hbase
  obtain ⟨hreached, hresolved⟩ := references_resolved
  obtain ⟨m, hm, hname, htm, hall⟩ := hresolved s.moment (hreached _) t ht
  obtain ⟨target, htarget, hn, hclass, -⟩ := hall .base "lib.Part" hmentions
  exact ⟨hreached _, t, ht, hfqn, hmentions, m, hm, hname, htm, target, htarget, hclass rfl, hn⟩

end TypeGraph
