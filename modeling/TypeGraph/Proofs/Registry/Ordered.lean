import Mathlib.Data.List.Nodup
import TypeGraph.Proofs.Registry.Coherent

/-!
# The order of committed assemblies

In a coherent catalog an assembly stands after everything it depends on.  So a path of dependencies goes
down in the list of assemblies, and never comes back to where it started.

**Results.**
* `DependencyFirst.earlier`: the position of a dependency is smaller.
* `Catalog.Coherent.depends_lt`: a path of dependencies goes down.
* `Catalog.Coherent.not_depends_cycle`: no committed assembly depends on itself.
-/

namespace TypeGraph

/-- In a list in dependency order, with nothing known before, each dependency of an assembly stands at a
smaller position. -/
theorem DependencyFirst.earlier
    {l : List Manifest}
    (h : DependencyFirst (fun _ => False) l)
    {i : Nat}
    {m : Manifest}
    (hi : l[i]? = some m)
    {name : String}
    (hname : name ∈ m.dependencyNames) :
    ∃ j < i, ∃ n, l[j]? = some n ∧ n.name = name := by
  obtain ⟨hlt, rfl⟩ := List.getElem?_eq_some_iff.1 hi
  have hsplit : l = l.take i ++ l[i] :: l.drop (i + 1) := by
    rw [List.getElem_cons_drop, List.take_append_drop]
  rcases h _ _ _ hsplit name hname with hfalse | ⟨n, hn, he⟩
  · exact hfalse.elim
  · obtain ⟨j, hj, rfl⟩ := List.mem_take_iff_getElem.1 hn
    exact ⟨j, by omega, _, List.getElem?_eq_getElem (by omega), he⟩

namespace Catalog

/-- Where the assembly of a name stands among the committed assemblies. -/
def position (c : Catalog) (name : String) : Nat :=
  (c.assemblies.map Manifest.name).idxOf name

section Ordered

variable {c : Catalog} {a b : String}

theorem Indexed.position_eq
    (h : c.Indexed)
    {i : Nat}
    {m : Manifest}
    (hi : c.assemblies[i]? = some m) :
    c.position m.name = i := by
  obtain ⟨hlt, rfl⟩ := List.getElem?_eq_some_iff.1 hi
  have hlt' : i < (c.assemblies.map Manifest.name).length := by simpa using hlt
  have hname : (c.assemblies.map Manifest.name)[i] = c.assemblies[i].name := List.getElem_map _
  rw [position, ← hname]
  exact h.names_nodup.idxOf_getElem i hlt'

/-- A dependency goes down in the list of assemblies. -/
theorem Coherent.position_lt
    (h : c.Coherent)
    (hd : Depends c.Has a b) :
    c.position b < c.position a := by
  obtain ⟨m, hm, rfl, hb⟩ := hd
  obtain ⟨i, hi⟩ := List.mem_iff_getElem?.1 hm
  obtain ⟨j, hji, n, hn, rfl⟩ := h.ordered.earlier hi hb
  rw [h.position_eq hi, h.position_eq hn]
  exact hji

/-- So does a path of dependencies. -/
theorem Coherent.depends_lt
    (h : c.Coherent)
    (hd : Relation.TransGen (Depends c.Has) a b) :
    c.position b < c.position a := by
  induction hd with
  | single hfirst => exact h.position_lt hfirst
  | tail _ hlast ih => exact Nat.lt_trans (h.position_lt hlast) ih

/-- No path of dependencies comes back to where it started. -/
theorem Coherent.not_depends_cycle
    (h : c.Coherent)
    (name : String) :
    ¬ Relation.TransGen (Depends c.Has) name name :=
  fun hcycle => Nat.lt_irrefl _ (h.depends_lt hcycle)

end Ordered

end Catalog
end TypeGraph
