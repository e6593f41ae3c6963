import TypeGraph.Proofs.Manifest.Decoded
import TypeGraph.Proofs.Registry.Coherent

/-!
# Catalogs as arenas

In a catalog whose assemblies were decoded from sources and whose types are told apart by their full
names, each full name leads to one type: the catalog and the assembly that declares it find the same,
and no other assembly finds any.

**Results.**
* `Catalog.Indexed.arena`: an indexed catalog of decoded assemblies is an arena.
-/

namespace TypeGraph

/-- A failure that says that something was not found. -/
def Failure.NotFound (f : Failure) : Prop :=
  f.report.failureClass = .notFound

namespace Catalog

/-- A catalog where each name and each full name stands for one thing: the types are those of the
assemblies in their order, the full name of a type starts with the name of its assembly and a dot, it is
found in the catalog and in its own assembly and in no other one, and the roots are assemblies in their
order. -/
structure Arena (c : Catalog) : Prop where
  names_nodup : (c.assemblies.map Manifest.name).Nodup
  fqns_nodup : (c.types.map TypeDef.fqn).Nodup
  types_eq : c.types = c.assemblies.flatMap Manifest.types
  qualified : ∀ m ∈ c.assemblies, ∀ t ∈ m.types, ∃ rest, t.fqn = m.name ++ "." ++ rest
  found : ∀ m ∈ c.assemblies, ∀ t ∈ m.types,
    c.findType (.string t.fqn) = .ok t ∧ m.findType (.string t.fqn) = .ok t ∧
      ∀ n ∈ c.assemblies, n ≠ m →
        ∃ failure, n.findType (.string t.fqn) = .error failure ∧ failure.NotFound
  roots_sublist : c.roots.Sublist c.assemblies

section Arena

variable {c : Catalog} {m n : Manifest} {t : TypeDef}

theorem Indexed.fqns_nodup_of_mem
    (h : c.Indexed)
    (hm : m ∈ c.assemblies) :
    (m.types.map TypeDef.fqn).Nodup := by
  have hfqns := h.fqns_nodup
  rw [h.types_eq, List.map_flatMap, List.nodup_flatMap] at hfqns
  exact hfqns.1 m hm

/-- An assembly finds its own types. -/
theorem Indexed.findType_own
    (h : c.Indexed)
    (hm : m ∈ c.assemblies)
    (ht : t ∈ m.types) :
    m.findType (.string t.fqn) = .ok t := by
  have hfind : (m.types.find? fun u => u.fqn == t.fqn) = some t :=
    (find?_key_eq_some_iff (h.fqns_nodup_of_mem hm)).2 ⟨ht, rfl⟩
  simp only [Manifest.findType, Json.string?, Option.bind_some, hfind]

/-- A full name is declared by one assembly. -/
theorem Indexed.declared_once
    (h : c.Indexed)
    (hm : m ∈ c.assemblies)
    (ht : t ∈ m.types)
    (hn : n ∈ c.assemblies)
    {u : TypeDef}
    (hu : u ∈ n.types)
    (he : u.fqn = t.fqn) :
    n = m := by
  have hut : u = t := List.inj_on_of_nodup_map h.fqns_nodup (h.mem_types_iff.2 ⟨n, hn, hu⟩)
    (h.mem_types_iff.2 ⟨m, hm, ht⟩) he
  have hname : n.name = m.name := by
    rw [← h.owns n hn u hu, ← h.owns m hm t ht, hut]
  exact List.inj_on_of_nodup_map h.names_nodup hn hm hname

/-- No other assembly finds a type. -/
theorem Indexed.findType_other
    (h : c.Indexed)
    (hm : m ∈ c.assemblies)
    (ht : t ∈ m.types)
    (hn : n ∈ c.assemblies)
    (hne : n ≠ m) :
    ∃ failure, n.findType (.string t.fqn) = .error failure ∧ failure.NotFound := by
  have hfind : (n.types.find? fun u => u.fqn == t.fqn) = none := by
    refine List.find?_eq_none.2 fun u hu he => hne ?_
    exact h.declared_once hm ht hn hu (by simpa using he)
  refine ⟨.notDeclared n.name (.string t.fqn), ?_, rfl⟩
  simp only [Manifest.findType, Json.string?, Option.bind_some, hfind]

/-- An indexed catalog of decoded assemblies is an arena. -/
theorem Indexed.arena
    (h : c.Indexed)
    (hdecoded : ∀ m ∈ c.assemblies, ∃ source, Manifest.decode source = .ok m) :
    c.Arena where
  names_nodup := h.names_nodup
  fqns_nodup := h.fqns_nodup
  types_eq := h.types_eq
  qualified m hm := by
    obtain ⟨source, hdecode⟩ := hdecoded m hm
    exact Manifest.scoped_of_decode hdecode
  found m hm t ht := by
    have hcommitted := h.mem_types_iff.2 ⟨m, hm, ht⟩
    exact ⟨h.typeNamed_iff.2 ⟨hcommitted, rfl⟩, h.findType_own hm ht,
      fun n hn hne => h.findType_other hm ht hn hne⟩
  roots_sublist := List.filter_sublist

/-- The roots are the committed assemblies whose names are names of roots. -/
theorem mem_roots_iff :
    m ∈ c.roots ↔ m ∈ c.assemblies ∧ m.name ∈ c.rootNames := by
  simp [roots, isRoot]

end Arena

end Catalog
end TypeGraph
