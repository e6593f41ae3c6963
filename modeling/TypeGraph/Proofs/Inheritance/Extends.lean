import TypeGraph.Proofs.Inheritance.Acyclic

/-!
# To extend is to inherit

Whether a type extends another one is told in four ways, by the kinds of the two: by their full names,
by the bases above a class, by the interfaces that a class and its ancestors list with all that those
extend, and by what an interface extends.  In a coherent catalog all of them tell the same: whether
links of bases and listed interfaces lead from the one type to the other.

A path of such links is one of bases, then one of listed interfaces; so it stays among classes if it
ends at a class, stays among interfaces if it starts at one, and neither starts nor ends at an enum.

**Results.**
* `Catalog.Indexed.mem_ancestors_iff`, `Catalog.Indexed.mem_interfaceClosure_iff`,
  `Catalog.Indexed.mem_classInterfaces_iff`: what the traversals list.
* `Catalog.Coherent.extendsType_iff`: a type extends another one exactly when links lead to it.
-/

namespace TypeGraph
namespace Catalog

section Extends

variable {c : Catalog} {t u : TypeDef} {names : List String} {fqn : String}

/-- The edges between the interfaces of an indexed catalog are those that its types declare. -/
theorem Indexed.interfaceGraph_edge
    (h : c.Indexed) :
    c.interfaceGraph.Edge = InterfaceLink c.Has :=
  interfaceLink_of_table h.fqns_nodup fun _ => h.mem_types_iff

/-- What is declared under the full name of a committed type is declared by that type. -/
theorem Indexed.declared_iff
    (h : c.Indexed)
    (ht : t ∈ c.types)
    {R : TypeDef → Prop} :
    (∃ m, c.Has m ∧ ∃ u ∈ m.types, u.fqn = t.fqn ∧ R u) ↔ R t := by
  constructor
  · rintro ⟨m, hm, u, hu, he, hdeclared⟩
    rwa [← List.inj_on_of_nodup_map h.fqns_nodup (h.mem_types_iff.2 ⟨m, hm, hu⟩) ht he]
  · intro hdeclared
    obtain ⟨m, hm, htm⟩ := h.mem_types_iff.1 ht
    exact ⟨m, hm, t, htm, rfl, hdeclared⟩

/-- A link of bases from a committed type is the base that it declares. -/
theorem Indexed.baseLink_iff
    (h : c.Indexed)
    (ht : t ∈ c.types) :
    BaseLink c.Has t.fqn fqn ↔ t.base = some fqn :=
  h.declared_iff ht

/-- A link of interfaces from a committed type is an interface that it lists. -/
theorem Indexed.interfaceLink_iff
    (h : c.Indexed)
    (ht : t ∈ c.types) :
    InterfaceLink c.Has t.fqn fqn ↔ fqn ∈ t.interfaces :=
  h.declared_iff ht

/-- The ancestors of a committed type are what links of bases lead to. -/
theorem Indexed.mem_ancestors_iff
    (h : c.Indexed)
    (ht : t ∈ c.types)
    (ha : c.ancestorsOf t = .ok names) :
    fqn ∈ names ↔ Relation.TransGen (BaseLink c.Has) t.fqn fqn := by
  unfold ancestorsOf at ha
  split at ha
  · rename_i hchain
    cases ha
    simp only [Links.mem_chain_iff hchain, Relation.TransGen.head'_iff, h.baseLinks_edge,
      h.baseLink_iff ht, Option.mem_def]
  · cases ha
  · cases ha

/-- An interface and those it extends are what links of interfaces lead to. -/
theorem Indexed.mem_interfaceClosure_iff
    (h : c.Indexed)
    {starts : List String}
    (hi : c.interfaceClosure starts = .ok names) :
    fqn ∈ names ↔
      ∃ start ∈ starts, Relation.ReflTransGen (InterfaceLink c.Has) start fqn := by
  unfold interfaceClosure at hi
  split at hi
  · rename_i hclosure
    cases hi
    simp only [Graph.mem_closure_iff hclosure, Graph.Reaches, h.interfaceGraph_edge]
  · cases hi

/-- The interfaces of a committed type are what links of bases, and then links of interfaces, lead
to. -/
theorem Indexed.mem_classInterfaces_iff
    (h : c.Indexed)
    (ht : t ∈ c.types)
    (hi : c.classInterfaces t = .ok names) :
    fqn ∈ names ↔ ∃ above, Relation.ReflTransGen (BaseLink c.Has) t.fqn above ∧
      Relation.TransGen (InterfaceLink c.Has) above fqn := by
  unfold classInterfaces at hi
  obtain ⟨above, habove, hi⟩ := bind_eq_ok_iff.1 hi
  obtain ⟨ancestors, hfound, hclosure⟩ := bind_eq_ok_iff.1 hi
  -- the class and its ancestors are the committed types that the chain of bases leads to
  have hmem : ∀ u, u ∈ t :: ancestors ↔
      u ∈ c.types ∧ Relation.ReflTransGen (BaseLink c.Has) t.fqn u.fqn := by
    intro u
    rw [List.mem_cons, Relation.reflTransGen_iff_eq_or_transGen, ← h.mem_ancestors_iff ht habove]
    constructor
    · rintro (rfl | hu)
      · exact ⟨ht, Or.inl rfl⟩
      · obtain ⟨name, hname, he⟩ := exists_of_mem_results hfound hu
        obtain ⟨hu, rfl⟩ := h.typeNamed_iff.1 he
        exact ⟨hu, Or.inr hname⟩
    · rintro ⟨hu, he | hname⟩
      · exact Or.inl (List.inj_on_of_nodup_map h.fqns_nodup hu ht he)
      · obtain ⟨v, hv, he⟩ := exists_result_of_mem hfound hname
        obtain ⟨hv', he⟩ := h.typeNamed_iff.1 he
        exact Or.inr (List.inj_on_of_nodup_map h.fqns_nodup hv' hu he ▸ hv)
  rw [h.mem_interfaceClosure_iff hclosure]
  constructor
  · rintro ⟨start, hstart, hr⟩
    obtain ⟨u, hu, hlisted⟩ := List.mem_flatMap.1 hstart
    obtain ⟨hu, hup⟩ := (hmem u).1 hu
    exact ⟨u.fqn, hup, .head' ((h.interfaceLink_iff hu).2 hlisted) hr⟩
  · rintro ⟨top, hup, hlinks⟩
    obtain ⟨start, ⟨m, hm, u, hu, rfl, hlisted⟩, hr⟩ := Relation.TransGen.head'_iff.1 hlinks
    have hu := (hmem u).2 ⟨h.mem_types_iff.2 ⟨m, hm, hu⟩, hup⟩
    exact ⟨start, List.mem_flatMap.2 ⟨u, hu, hlisted⟩, hr⟩

theorem BaseLink.inherits
    {P : Manifest → Prop}
    (a b : String)
    (h : BaseLink P a b) :
    Inherits P a b :=
  Or.inl h

theorem InterfaceLink.inherits
    {P : Manifest → Prop}
    (a b : String)
    (h : InterfaceLink P a b) :
    Inherits P a b :=
  Or.inr h

/-- A path that ends at a class is one of bases. -/
theorem Coherent.inherits_class_iff
    (h : c.Coherent)
    (hu : c.Knows OfClass fqn) :
    Relation.ReflTransGen (Inherits c.Has) t.fqn fqn ↔
      Relation.ReflTransGen (BaseLink c.Has) t.fqn fqn := by
  refine ⟨fun hr => ?_, Relation.ReflTransGen.mono BaseLink.inherits _ _⟩
  -- read backwards, from class to class
  have hback : Relation.ReflTransGen (Function.swap (BaseLink c.Has)) fqn t.fqn :=
    (reflTransGen_within h.inherits_of_class hu (Relation.reflTransGen_swap.2 hr)).1
  exact Relation.reflTransGen_swap.1 hback

/-- A path that starts at an interface is one of listed interfaces, and ends at an interface. -/
theorem Coherent.inherits_of_interface_iff
    (h : c.Coherent)
    (ht : c.Knows OfInterface t.fqn) :
    Relation.ReflTransGen (Inherits c.Has) t.fqn fqn ↔
      Relation.ReflTransGen (InterfaceLink c.Has) t.fqn fqn ∧ c.Knows OfInterface fqn := by
  refine ⟨reflTransGen_within h.inherits_of_interface ht, fun hr => ?_⟩
  exact Relation.ReflTransGen.mono InterfaceLink.inherits _ _ hr.1

/-- A path from a class to an interface is one of bases and then one of listed interfaces. -/
theorem Coherent.inherits_interface_iff
    (h : c.Coherent)
    (ht : c.Knows OfClass t.fqn)
    (hu : c.Knows OfInterface fqn) :
    Relation.ReflTransGen (Inherits c.Has) t.fqn fqn ↔
      ∃ above, Relation.ReflTransGen (BaseLink c.Has) t.fqn above ∧
        Relation.TransGen (InterfaceLink c.Has) above fqn := by
  constructor
  · intro hr
    generalize t.fqn = start at ht hr
    induction hr using Relation.ReflTransGen.head_induction_on with
    | refl =>
        obtain ⟨v, hv, he, hkind⟩ := ht
        have hclash := h.kind_eq_of_knows hu hv he
        rw [hkind] at hclash
        cases hclash
    | @head a b hfirst hrest ih =>
        obtain ⟨v, hv, rfl, hclass⟩ := ht
        rcases hfirst with hbase | hlisted
        · have hb := h.knows_base hv ((h.toIndexed.baseLink_iff hv).1 hbase)
          obtain ⟨above, hup, hlinks⟩ := ih hb
          exact ⟨above, .head hbase hup, hlinks⟩
        · have hb := h.knows_interface hv ((h.toIndexed.interfaceLink_iff hv).1 hlisted)
          have hlinks := (reflTransGen_within h.inherits_of_interface hb hrest).1
          exact ⟨v.fqn, .refl, .head' hlisted hlinks⟩
  · rintro ⟨above, hup, hlinks⟩
    exact (Relation.ReflTransGen.mono BaseLink.inherits _ _ hup).trans
      (Relation.ReflTransGen.mono InterfaceLink.inherits _ _ hlinks.to_reflTransGen)

theorem kind_of_interfaces
    (h : fqn ∈ t.interfaces) :
    t.kind ≠ .enumKind := by
  intro hkind
  unfold TypeDef.kind at hkind
  split at hkind
  · cases hkind
  · cases hkind
  · rename_i hbody
    simp [TypeDef.interfaces, TypeDef.members, hbody] at h

/-- Neither end of a link is an enum. -/
theorem Coherent.not_enum_of_inherits
    (h : c.Coherent)
    {a b : String}
    (hi : Inherits c.Has a b)
    (ht : t ∈ c.types)
    (hkind : t.kind = .enumKind) :
    t.fqn ≠ a ∧ t.fqn ≠ b := by
  have hends : ∃ v w, v ∈ c.types ∧ w ∈ c.types ∧ v.fqn = a ∧ w.fqn = b ∧
      v.kind ≠ .enumKind ∧ w.kind ≠ .enumKind := by
    rcases hi with ⟨m, hm, v, hv, he, hbase⟩ | ⟨m, hm, v, hv, he, hlisted⟩ <;>
      have hv := h.mem_types_iff.2 ⟨m, hm, hv⟩
    · obtain ⟨w, hw, hname, hclass⟩ := h.knows_base hv hbase
      exact ⟨v, w, hv, hw, he, hname, by simp [kind_of_base hbase], by simp [hclass]⟩
    · obtain ⟨w, hw, hname, hinterface⟩ := h.knows_interface hv hlisted
      exact ⟨v, w, hv, hw, he, hname, kind_of_interfaces hlisted, by simp [hinterface]⟩
  obtain ⟨v, w, hv, hw, rfl, rfl, hvkind, hwkind⟩ := hends
  constructor
  · intro he
    rw [List.inj_on_of_nodup_map h.fqns_nodup ht hv he] at hkind
    exact hvkind hkind
  · intro he
    rw [List.inj_on_of_nodup_map h.fqns_nodup ht hw he] at hkind
    exact hwkind hkind

/-- A path from an enum or to one is empty. -/
theorem Coherent.inherits_enum_iff
    (h : c.Coherent)
    (ht : t ∈ c.types)
    (hu : u ∈ c.types)
    (hkind : t.kind = .enumKind ∨ u.kind = .enumKind) :
    Relation.ReflTransGen (Inherits c.Has) t.fqn u.fqn ↔ u.fqn = t.fqn := by
  refine ⟨fun hr => ?_, fun he => he ▸ .refl⟩
  rcases hkind with hkind | hkind
  · rcases Relation.ReflTransGen.cases_head hr with he | ⟨next, hfirst, -⟩
    · exact he.symm
    · exact absurd rfl (h.not_enum_of_inherits hfirst ht hkind).1
  · rcases Relation.ReflTransGen.cases_tail hr with he | ⟨last, -, hlast⟩
    · exact he
    · exact absurd rfl (h.not_enum_of_inherits hlast hu hkind).2

/-- What differs from where a path starts is at the end of a path that takes at least one step. -/
theorem reflTransGen_iff_transGen
    {r : String → String → Prop}
    {a b : String}
    (h : ¬ (b == a) = true) :
    Relation.ReflTransGen r a b ↔ Relation.TransGen r a b := by
  rw [Relation.reflTransGen_iff_eq_or_transGen]
  exact or_iff_right (by simpa using h)

/-- A committed type extends another one exactly when links of bases and listed interfaces lead from it
to the other one. -/
theorem Coherent.extendsType_iff
    (h : c.Coherent)
    (ht : t ∈ c.types)
    (hu : u ∈ c.types)
    {answer : Bool}
    (he : c.extendsType t u = .ok answer) :
    answer = true ↔ Relation.ReflTransGen (Inherits c.Has) t.fqn u.fqn := by
  have htknown : ∀ {kind}, t.kind = kind → c.Knows (fun v => v.kind = kind) t.fqn :=
    fun hkind => ⟨t, ht, rfl, hkind⟩
  have huknown : ∀ {kind}, u.kind = kind → c.Knows (fun v => v.kind = kind) u.fqn :=
    fun hkind => ⟨u, hu, rfl, hkind⟩
  unfold extendsType at he
  split at he
  · rename_i _ _ htclass huclass
    rw [h.inherits_class_iff (huknown huclass)]
    split at he
    · rename_i hself
      cases he
      simp [show u.fqn = t.fqn by simpa using hself, Relation.ReflTransGen.refl]
    · rename_i hself
      obtain ⟨above, ha, hanswer⟩ := bind_eq_ok_iff.1 he
      cases hanswer
      rw [reflTransGen_iff_transGen hself, ← h.mem_ancestors_iff ht ha, List.contains_iff_mem]
  · rename_i _ _ htclass huinterface
    split at he
    · rename_i hself
      cases he
      simp [show u.fqn = t.fqn by simpa using hself, Relation.ReflTransGen.refl]
    · obtain ⟨closure, hclosure, hanswer⟩ := bind_eq_ok_iff.1 he
      cases hanswer
      rw [h.inherits_interface_iff (htknown htclass) (huknown huinterface),
        ← h.mem_classInterfaces_iff ht hclosure, List.contains_iff_mem]
  · rename_i _ _ htinterface huinterface
    obtain ⟨closure, hclosure, hanswer⟩ := bind_eq_ok_iff.1 he
    cases hanswer
    rw [h.inherits_of_interface_iff (htknown htinterface), List.contains_iff_mem,
      h.mem_interfaceClosure_iff hclosure]
    simp [huknown huinterface]
  · rename_i _ _ htinterface hunot
    cases he
    rw [h.inherits_of_interface_iff (htknown htinterface)]
    refine iff_of_false (by simp) fun hr => ?_
    exact hunot (h.kind_eq_of_knows hr.2 hu rfl)
  · rename_i _ _ hinterface hclasses hclass _
    cases he
    have hkind : t.kind = .enumKind ∨ u.kind = .enumKind := by
      cases ht : t.kind with
      | enumKind => exact Or.inl rfl
      | interfaceKind => exact absurd ht hinterface
      | classKind =>
          cases hu : u.kind with
          | enumKind => exact Or.inr rfl
          | interfaceKind => exact absurd hu (hclass ht)
          | classKind => exact absurd hu (hclasses ht)
    rw [h.inherits_enum_iff ht hu hkind, beq_iff_eq]

end Extends

end Catalog
end TypeGraph
