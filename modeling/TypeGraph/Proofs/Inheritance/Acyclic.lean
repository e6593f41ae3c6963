import TypeGraph.Proofs.Inheritance.Total

/-!
# No cycles of inheritance

A load looks for cycles upwards from the classes and the interfaces of its own batch.  This is enough
for all committed types together: a link starts at a committed type that declares it, every committed
type was in some batch, and what was found above it then is what is above it for ever.

A class declares a base and lists interfaces, an interface lists interfaces alone.  So a chain of links
of both kinds that has come to an interface stays among interfaces, and one that ends at a class was
among classes all the way.

**Results.**
* `Catalog.Coherent.not_base_cycle`, `Catalog.Coherent.not_interface_cycle`: no chain of bases and no
  chain of listed interfaces comes back to where it started.
* `Catalog.Coherent.not_inherits_cycle`: neither does a chain of both.
-/

namespace TypeGraph

/-- The type `a` declares `b` as its base, or lists it among its interfaces. -/
def Inherits (P : Manifest → Prop) (a b : String) : Prop :=
  BaseLink P a b ∨ InterfaceLink P a b

namespace Catalog

section Acyclic

variable {c : Catalog}

/-- No chain of bases comes back to where it started. -/
theorem Coherent.not_base_cycle
    (h : c.Coherent)
    (fqn : String) :
    ¬ Relation.TransGen (BaseLink c.Has) fqn fqn := by
  intro hcycle
  obtain ⟨next, ⟨m, hm, t, ht, rfl, hbase⟩, -⟩ := Relation.TransGen.head'_iff.1 hcycle
  exact h.sound.bases m hm t ht (kind_of_base hbase) t.fqn .refl hcycle

/-- No chain of listed interfaces comes back to where it started.  The last link of such a chain tells
that it started at an interface: classes list interfaces too, but are not listed themselves. -/
theorem Coherent.not_interface_cycle
    (h : c.Coherent)
    (fqn : String) :
    ¬ Relation.TransGen (InterfaceLink c.Has) fqn fqn := by
  intro hcycle
  obtain ⟨last, -, m, hm, t, ht, -, hlisted⟩ := Relation.TransGen.tail'_iff.1 hcycle
  obtain ⟨u, hu, rfl, hkind⟩ := h.knows_interface (h.mem_types_iff.2 ⟨m, hm, ht⟩) hlisted
  obtain ⟨n, hn, hun⟩ := h.mem_types_iff.1 hu
  exact h.sound.interfaces n hn u hun hkind u.fqn .refl hcycle

/-- A full name stands for a type of one kind. -/
theorem Indexed.kind_eq_of_knows
    (h : c.Indexed)
    {kind : TypeKind}
    {fqn : String}
    (hk : c.Knows (fun u => u.kind = kind) fqn)
    {t : TypeDef}
    (ht : t ∈ c.types)
    (he : t.fqn = fqn) :
    t.kind = kind := by
  obtain ⟨u, hu, rfl, hkind⟩ := hk
  rw [List.inj_on_of_nodup_map h.fqns_nodup ht hu he]
  exact hkind

/-- What an interface inherits from is an interface that it lists. -/
theorem Coherent.inherits_of_interface
    (h : c.Coherent)
    (a b : String)
    (ha : c.Knows OfInterface a)
    (hi : Inherits c.Has a b) :
    InterfaceLink c.Has a b ∧ c.Knows OfInterface b := by
  rcases hi with ⟨m, hm, t, ht, he, hbase⟩ | ⟨m, hm, t, ht, he, hlisted⟩
  · have hkind := h.kind_eq_of_knows ha (h.mem_types_iff.2 ⟨m, hm, ht⟩) he
    rw [kind_of_base hbase] at hkind
    cases hkind
  · exact ⟨⟨m, hm, t, ht, he, hlisted⟩, h.knows_interface (h.mem_types_iff.2 ⟨m, hm, ht⟩) hlisted⟩

/-- What inherits from a class is a class that declares it as its base. -/
theorem Coherent.inherits_of_class
    (h : c.Coherent)
    (b a : String)
    (hb : c.Knows OfClass b)
    (hi : Inherits c.Has a b) :
    BaseLink c.Has a b ∧ c.Knows OfClass a := by
  rcases hi with ⟨m, hm, t, ht, rfl, hbase⟩ | ⟨m, hm, t, ht, rfl, hlisted⟩
  · exact ⟨⟨m, hm, t, ht, rfl, hbase⟩, t, h.mem_types_iff.2 ⟨m, hm, ht⟩, rfl, kind_of_base hbase⟩
  · obtain ⟨u, hu, he, hkind⟩ := h.knows_interface (h.mem_types_iff.2 ⟨m, hm, ht⟩) hlisted
    have hclass := h.kind_eq_of_knows hb hu he
    rw [hkind] at hclass
    cases hclass

/-- No chain of bases and listed interfaces comes back to where it started. -/
theorem Coherent.not_inherits_cycle
    (h : c.Coherent)
    (fqn : String) :
    ¬ Relation.TransGen (Inherits c.Has) fqn fqn := by
  intro hcycle
  obtain ⟨last, -, hlast⟩ := Relation.TransGen.tail'_iff.1 hcycle
  rcases hlast with ⟨m, hm, t, ht, -, hbase⟩ | ⟨m, hm, t, ht, -, hlisted⟩
  · -- the chain ends at a class, so it is read backwards, from class to class
    have hclass : c.Knows OfClass fqn := h.knows_base (h.mem_types_iff.2 ⟨m, hm, ht⟩) hbase
    have hback : Relation.TransGen (Function.swap (BaseLink c.Has)) fqn fqn :=
      transGen_within h.inherits_of_class hclass (Relation.transGen_swap.2 hcycle)
    exact h.not_base_cycle fqn (Relation.transGen_swap.1 hback)
  · have hinterface : c.Knows OfInterface fqn :=
      h.knows_interface (h.mem_types_iff.2 ⟨m, hm, ht⟩) hlisted
    exact h.not_interface_cycle fqn (transGen_within h.inherits_of_interface hinterface hcycle)

end Acyclic

end Catalog
end TypeGraph
