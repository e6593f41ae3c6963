import TypeGraph.Proofs.Graph.BreadthFirst
import TypeGraph.Proofs.Inheritance.Extends

/-!
# What a type inherits from, as it is listed

The ancestors of a class are the bases above it, each the base of the one before it, up to a class
without a base.  The interfaces of a class or an interface are in breadth-first order from those that the
type and its ancestors declare.  An interface is reached from itself without a link, so its own closure
begins with it; no chain of interfaces comes back to where it started, so what follows is in breadth-first
order from the interfaces that it declares.

**Results.**
* `Catalog.Coherent.exists_baseChain`: the ancestors of a committed type are a chain of bases.
* `Catalog.Coherent.exists_inheritedInterfaces`: the interfaces of a committed type come in breadth-first
  order from those that are declared along its bases.
* `Catalog.Coherent.base_path_iff`, `Catalog.Coherent.interface_path_iff`: these are the other classes and
  interfaces that the type inherits from.
-/

namespace TypeGraph
namespace Catalog

/-- The bases above a type, the nearest first, up to a class without a base. -/
inductive BaseChain (c : Catalog) : TypeDef → List TypeDef → Prop
  | top {t : TypeDef} :
      t.base = none →
      BaseChain c t []
  | up {t u : TypeDef} {above : List TypeDef} :
      t.base = some u.fqn →
      u ∈ c.types →
      BaseChain c u above →
      BaseChain c t (u :: above)

/-- A type or one of the bases above it declares an interface. -/
def DeclaredAlong (c : Catalog) (t : TypeDef) (fqn : String) : Prop :=
  ∃ above, Relation.ReflTransGen (BaseLink c.Has) t.fqn above ∧ InterfaceLink c.Has above fqn

section BaseChain

variable {c : Catalog} {t u : TypeDef} {above : List TypeDef}

theorem BaseChain.mem_types
    (h : c.BaseChain t above) :
    ∀ u ∈ above, u ∈ c.types := by
  induction h with
  | top => simp
  | up _ hu _ ih => exact List.forall_mem_cons.2 ⟨hu, ih⟩

/-- Each type of a chain of bases declares the next one as its base. -/
theorem BaseChain.isChain
    (h : c.BaseChain t above) :
    (t :: above).IsChain fun a b => a.base = some b.fqn := by
  induction h with
  | top => exact .singleton _
  | up hbase _ _ ih => exact .cons_cons hbase ih

/-- What comes later in a chain of bases is reached from what comes before it. -/
theorem BaseChain.pairwise
    (h : c.BaseChain t above)
    (hi : c.Indexed)
    (ht : t ∈ c.types) :
    (t :: above).Pairwise fun a b => Relation.TransGen (BaseLink c.Has) a.fqn b.fqn := by
  induction h with
  | top => exact List.pairwise_singleton _ _
  | @up t u above hbase hu _ ih =>
      have hlink : BaseLink c.Has t.fqn u.fqn := (hi.baseLink_iff ht).2 hbase
      have hrest := ih hu
      refine List.pairwise_cons.2 ⟨fun v hv => ?_, hrest⟩
      rcases List.mem_cons.1 hv with rfl | hv
      · exact .single hlink
      · exact .head hlink ((List.pairwise_cons.1 hrest).1 v hv)

/-- No type comes twice in a chain of bases. -/
theorem BaseChain.fqns_nodup
    (h : c.BaseChain t above)
    (hc : c.Coherent)
    (ht : t ∈ c.types) :
    ((t :: above).map TypeDef.fqn).Nodup := by
  refine List.pairwise_map.2 ((h.pairwise hc.toIndexed ht).imp fun {a b} hpath he => ?_)
  rw [he] at hpath
  exact hc.not_base_cycle b.fqn hpath

/-- A chain of bases holds all that links of bases lead to. -/
theorem BaseChain.mem_iff
    (h : c.BaseChain t above)
    (hi : c.Indexed)
    (ht : t ∈ c.types)
    (hu : u ∈ c.types) :
    u ∈ above ↔ Relation.TransGen (BaseLink c.Has) t.fqn u.fqn := by
  induction h with
  | top hbase =>
      refine iff_of_false List.not_mem_nil fun hpath => ?_
      obtain ⟨next, hlink, -⟩ := Relation.TransGen.head'_iff.1 hpath
      rw [hi.baseLink_iff ht, hbase] at hlink
      cases hlink
  | @up t v above hbase hv _ ih =>
      have hsame : u = v ↔ u.fqn = v.fqn :=
        ⟨congrArg TypeDef.fqn, fun he => List.inj_on_of_nodup_map hi.fqns_nodup hu hv he⟩
      rw [List.mem_cons, ih hv, hsame, ← Relation.reflTransGen_iff_eq_or_transGen,
        Relation.TransGen.head'_iff]
      simp only [hi.baseLink_iff ht, hbase, Option.some.injEq, exists_eq_left']

/-- A climb along the bases of committed types is a chain of bases. -/
theorem Indexed.baseChain_of_climb
    (h : c.Indexed)
    {start : Option String}
    {names : List String}
    (hclimb : c.baseLinks.Climb start names)
    (hbase : t.base = start) :
    ∃ above, names = above.map TypeDef.fqn ∧ c.BaseChain t above := by
  induction hclimb generalizing t with
  | top => exact ⟨[], rfl, .top hbase⟩
  | up hlook _ ih =>
      obtain ⟨u, hu, rfl, hnext⟩ := (Nodes.lookup_keyed_eq_some_iff h.fqns_nodup).1 hlook
      obtain ⟨above, rfl, hchain⟩ := ih hnext
      exact ⟨u :: above, rfl, .up hbase hu hchain⟩

/-- The ancestors of a committed type are the bases above it. -/
theorem Coherent.exists_baseChain
    (h : c.Coherent)
    (ht : t ∈ c.types) :
    ∃ above, c.ancestorsOf t = .ok (above.map TypeDef.fqn) ∧ c.BaseChain t above := by
  obtain ⟨names, hnames, -⟩ := h.exists_ancestors ht
  have hchain : c.baseLinks.chain t.base = (names, .top) := by
    unfold ancestorsOf at hnames
    split at hnames
    · rename_i hchain
      cases hnames
      exact hchain
    · cases hnames
    · cases hnames
  obtain ⟨above, rfl, habove⟩ := h.baseChain_of_climb (Links.chain_climb hchain) rfl
  exact ⟨above, hnames, habove⟩

/-- Committed types are found by their full names. -/
theorem Indexed.typesNamed_map
    (h : c.Indexed)
    {types : List TypeDef}
    (ht : ∀ u ∈ types, u ∈ c.types) :
    (types.map TypeDef.fqn).mapM c.typeNamed = .ok types := by
  rw [mapM_eq_ok_iff, List.forall₂_map_left_iff, List.forall₂_same]
  exact fun u hu => h.typeNamed_iff.2 ⟨ht u hu, rfl⟩

/-- A committed type is among others when its full name is among theirs. -/
theorem Indexed.mem_map_fqn_iff
    (h : c.Indexed)
    {types : List TypeDef}
    (ht : ∀ v ∈ types, v ∈ c.types)
    (hu : u ∈ c.types) :
    u.fqn ∈ types.map TypeDef.fqn ↔ u ∈ types := by
  refine ⟨fun hmem => ?_, List.mem_map_of_mem⟩
  obtain ⟨v, hv, he⟩ := List.mem_map.1 hmem
  rwa [← List.inj_on_of_nodup_map h.fqns_nodup (ht v hv) hu he]

/-- Names that stand for committed types of some kind are the full names of these. -/
theorem exists_types_of_knows
    {P : TypeDef → Prop}
    {names : List String}
    (h : ∀ name ∈ names, c.Knows P name) :
    ∃ types : List TypeDef, names = types.map TypeDef.fqn ∧ ∀ u ∈ types, u ∈ c.types ∧ P u := by
  induction names with
  | nil => exact ⟨[], rfl, by simp⟩
  | cons name rest ih =>
      obtain ⟨⟨u, hu, rfl, hP⟩, hrest⟩ := List.forall_mem_cons.1 h
      obtain ⟨types, rfl, htypes⟩ := ih hrest
      exact ⟨u :: types, rfl, List.forall_mem_cons.2 ⟨⟨hu, hP⟩, htypes⟩⟩

end BaseChain

section Paths

variable {c : Catalog} {t u : TypeDef} (h : c.Coherent) (ht : t ∈ c.types)
include h ht

/-- Links of bases lead from a type exactly to the other classes that it inherits from. -/
theorem Coherent.base_path_iff
    (hu : u ∈ c.types) :
    Relation.TransGen (BaseLink c.Has) t.fqn u.fqn ↔
      u.kind = .classKind ∧ u ≠ t ∧ Relation.ReflTransGen (Inherits c.Has) t.fqn u.fqn := by
  constructor
  · intro hpath
    obtain ⟨last, -, m, hm, v, hv, -, hbase⟩ := Relation.TransGen.tail'_iff.1 hpath
    have hclass := h.knows_base (h.mem_types_iff.2 ⟨m, hm, hv⟩) hbase
    refine ⟨h.kind_eq_of_knows hclass hu rfl, ?_, ?_⟩
    · rintro rfl
      exact h.not_base_cycle u.fqn hpath
    · exact (h.inherits_class_iff hclass).2 hpath.to_reflTransGen
  · rintro ⟨hclass, hne, hpath⟩
    have hbases := (h.inherits_class_iff ⟨u, hu, rfl, hclass⟩).1 hpath
    refine (Relation.reflTransGen_iff_eq_or_transGen.1 hbases).resolve_left fun he => ?_
    exact hne (List.inj_on_of_nodup_map h.fqns_nodup hu ht he)

/-- Links of bases, and then links of interfaces, lead from a type exactly to the other interfaces that it
inherits from. -/
theorem Coherent.interface_path_iff
    (hu : u ∈ c.types) :
    (∃ above, Relation.ReflTransGen (BaseLink c.Has) t.fqn above ∧
        Relation.TransGen (InterfaceLink c.Has) above u.fqn) ↔
      u.kind = .interfaceKind ∧ u ≠ t ∧ Relation.ReflTransGen (Inherits c.Has) t.fqn u.fqn := by
  constructor
  · rintro ⟨above, hup, hlinks⟩
    obtain ⟨last, -, m, hm, v, hv, -, hlisted⟩ := Relation.TransGen.tail'_iff.1 hlinks
    have hinterface := h.knows_interface (h.mem_types_iff.2 ⟨m, hm, hv⟩) hlisted
    have hpath : Relation.TransGen (Inherits c.Has) t.fqn u.fqn :=
      .trans_right (Relation.ReflTransGen.mono BaseLink.inherits _ _ hup)
        (Relation.TransGen.mono InterfaceLink.inherits _ _ hlinks)
    refine ⟨h.kind_eq_of_knows hinterface hu rfl, ?_, hpath.to_reflTransGen⟩
    rintro rfl
    exact h.not_inherits_cycle u.fqn hpath
  · rintro ⟨hinterface, hne, hpath⟩
    have hne' : u.fqn ≠ t.fqn := fun he => hne (List.inj_on_of_nodup_map h.fqns_nodup hu ht he)
    cases hkind : t.kind with
    | classKind =>
        exact (h.inherits_interface_iff ⟨t, ht, rfl, hkind⟩ ⟨u, hu, rfl, hinterface⟩).1 hpath
    | interfaceKind =>
        have hlinks := ((h.inherits_of_interface_iff ⟨t, ht, rfl, hkind⟩).1 hpath).1
        refine ⟨t.fqn, .refl, ?_⟩
        exact (Relation.reflTransGen_iff_eq_or_transGen.1 hlinks).resolve_left hne'
    | enumKind =>
        exact absurd ((h.inherits_enum_iff ht hu (Or.inl hkind)).1 hpath) hne'

end Paths

section Interfaces

variable {c : Catalog} {t : TypeDef} {starts names : List String}

/-- The successors of a committed type in the graph of interfaces are those that it declares. -/
theorem Indexed.successors_eq
    (h : c.Indexed)
    (ht : t ∈ c.types) :
    c.interfaceGraph.successors t.fqn = t.interfaces := by
  have hlook : c.interfaceGraph.lookup t.fqn = some t.interfaces :=
    (Nodes.lookup_keyed_eq_some_iff h.fqns_nodup).2 ⟨t, ht, rfl, rfl⟩
  rw [Graph.successors, hlook]
  rfl

theorem Indexed.next_successors
    (h : c.Indexed) :
    Graph.Next c.interfaceGraph.successors = InterfaceLink c.Has :=
  c.interfaceGraph.next_successors.trans h.interfaceGraph_edge

/-- A closure of interfaces is in breadth-first order. -/
theorem breadthFirst_of_interfaceClosure
    (h : c.interfaceClosure starts = .ok names) :
    Graph.BreadthFirst c.interfaceGraph.successors starts names := by
  unfold interfaceClosure at h
  split at h
  · rename_i hclosure
    cases h
    exact Graph.closure_breadthFirst hclosure
  · cases h

/-- What a type and the bases above it declare one after the other is what is declared along its bases. -/
theorem Indexed.mem_declared_iff
    (h : c.Indexed)
    (ht : t ∈ c.types)
    {above : List TypeDef}
    (hchain : c.BaseChain t above)
    {fqn : String} :
    fqn ∈ (t :: above).flatMap TypeDef.interfaces ↔ c.DeclaredAlong t fqn := by
  constructor
  · intro hmem
    obtain ⟨u, hu, hlisted⟩ := List.mem_flatMap.1 hmem
    rcases List.mem_cons.1 hu with rfl | hu
    · exact ⟨u.fqn, .refl, (h.interfaceLink_iff ht).2 hlisted⟩
    · have hcommitted := hchain.mem_types u hu
      have hpath := (hchain.mem_iff h ht hcommitted).1 hu
      exact ⟨u.fqn, hpath.to_reflTransGen, (h.interfaceLink_iff hcommitted).2 hlisted⟩
  · rintro ⟨name, hup, m, hm, u, hum, rfl, hlisted⟩
    have hu : u ∈ c.types := h.mem_types_iff.2 ⟨m, hm, hum⟩
    rcases Relation.reflTransGen_iff_eq_or_transGen.1 hup with he | hup
    · rw [List.inj_on_of_nodup_map h.fqns_nodup hu ht he] at hlisted
      exact List.mem_flatMap.2 ⟨t, by simp, hlisted⟩
    · have hmem := (hchain.mem_iff h ht hu).2 hup
      exact List.mem_flatMap.2 ⟨u, List.mem_cons_of_mem _ hmem, hlisted⟩

/-- No base is above an interface, so what is declared along its bases is what it declares. -/
theorem Indexed.declaredAlong_interface_iff
    (h : c.Indexed)
    (ht : t ∈ c.types)
    (hkind : t.kind = .interfaceKind)
    {fqn : String} :
    c.DeclaredAlong t fqn ↔ fqn ∈ t.interfaces := by
  rw [← h.interfaceLink_iff ht]
  refine ⟨fun ⟨above, hup, hlink⟩ => ?_, fun hlink => ⟨t.fqn, .refl, hlink⟩⟩
  rcases Relation.ReflTransGen.cases_head hup with rfl | ⟨next, hbase, -⟩
  · exact hlink
  · rw [kind_of_base ((h.baseLink_iff ht).1 hbase)] at hkind
    cases hkind

/-- The closure of an interface begins with the interface, and goes on in breadth-first order from those
that it declares. -/
theorem Coherent.exists_ownClosure_cons
    (h : c.Coherent)
    (ht : t ∈ c.types)
    (hkind : t.kind = .interfaceKind) :
    ∃ rest, c.ownClosure t = .ok (t.fqn :: rest) ∧
      Graph.BreadthFirst c.interfaceGraph.successors [t.fqn] (t.fqn :: rest) ∧
      Graph.BreadthFirst c.interfaceGraph.successors t.interfaces rest ∧
      ∀ name ∈ t.fqn :: rest, c.Knows OfInterface name := by
  obtain ⟨names, hnames, hknown⟩ := h.exists_ownClosure ht hkind
  have horder := breadthFirst_of_interfaceClosure hnames
  have hback : ¬ Relation.TransGen (Graph.Next c.interfaceGraph.successors) t.fqn t.fqn := by
    rw [h.next_successors]
    exact h.not_interface_cycle t.fqn
  obtain ⟨rest, rfl, hrest⟩ := horder.after_start hback
  rw [h.successors_eq ht] at hrest
  exact ⟨rest, hnames, horder, hrest, hknown⟩

/-- The interfaces that a class or an interface inherits come in breadth-first order from those that are
declared along its bases, its own first. -/
theorem Coherent.exists_inheritedInterfaces
    (h : c.Coherent)
    (ht : t ∈ c.types)
    (hkind : t.kind ≠ .enumKind) :
    ∃ starts names, c.interfacesOf t true = .ok names ∧
      Graph.BreadthFirst c.interfaceGraph.successors starts names ∧
      t.interfaces <+: starts ∧ (∀ fqn, fqn ∈ starts ↔ c.DeclaredAlong t fqn) ∧
      ∀ name ∈ names, c.Knows OfInterface name := by
  cases hk : t.kind with
  | classKind =>
      obtain ⟨names, hnames, hknown⟩ := h.exists_classInterfaces ht
      obtain ⟨above, habove, hchain⟩ := h.exists_baseChain ht
      have hclosure : c.interfaceClosure ((t :: above).flatMap TypeDef.interfaces) = .ok names := by
        rw [classInterfaces, bind_of_ok habove, bind_of_ok (h.typesNamed_map hchain.mem_types)] at hnames
        exact hnames
      refine ⟨_, names, ?_, breadthFirst_of_interfaceClosure hclosure, ?_,
        fun fqn => h.mem_declared_iff ht hchain, hknown⟩
      · unfold interfacesOf
        rw [hk]
        exact hnames
      · rw [List.flatMap_cons]
        exact List.prefix_append _ _
  | interfaceKind =>
      obtain ⟨rest, hnames, -, hrest, hknown⟩ := h.exists_ownClosure_cons ht hk
      refine ⟨t.interfaces, rest, ?_, hrest, List.prefix_rfl,
        fun fqn => (h.declaredAlong_interface_iff ht hk).symm,
        fun name hname => hknown name (List.mem_cons_of_mem _ hname)⟩
      unfold interfacesOf
      rw [hk]
      exact bind_eq_ok_iff.2 ⟨_, hnames, rfl⟩
  | enumKind => exact absurd hk hkind

/-- What is in breadth-first order from what is declared along the bases of a type is what links of bases,
and then links of interfaces, lead to. -/
theorem Indexed.mem_inheritedInterfaces_iff
    (h : c.Indexed)
    (horder : Graph.BreadthFirst c.interfaceGraph.successors starts names)
    (hstarts : ∀ fqn, fqn ∈ starts ↔ c.DeclaredAlong t fqn)
    {fqn : String} :
    fqn ∈ names ↔ ∃ above, Relation.ReflTransGen (BaseLink c.Has) t.fqn above ∧
      Relation.TransGen (InterfaceLink c.Has) above fqn := by
  rw [horder.mem_iff_reached, h.next_successors]
  constructor
  · rintro ⟨start, hstart, hr⟩
    obtain ⟨above, hup, hlink⟩ := (hstarts start).1 hstart
    exact ⟨above, hup, .head' hlink hr⟩
  · rintro ⟨above, hup, hlinks⟩
    obtain ⟨start, hlink, hr⟩ := Relation.TransGen.head'_iff.1 hlinks
    exact ⟨start, (hstarts start).2 ⟨above, hup, hlink⟩, hr⟩

end Interfaces

end Catalog
end TypeGraph
