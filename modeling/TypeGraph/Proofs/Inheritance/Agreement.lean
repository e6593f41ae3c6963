import Mathlib.Data.List.Sort
import Mathlib.Data.String.Basic
import TypeGraph.Proofs.Inheritance.Total

/-!
# Catalogs with the same types

The order in which types were committed does not matter for what is known about them: two coherent
catalogs with the same types, in whatever orders, find the same type by each full name, tell alike
whether a type extends another one, and list the same implementations.

**Results.**
* `Catalog.Coherent.findType_eq`: a key names the same type.
* `Catalog.Coherent.extendsType_eq`, `Catalog.Coherent.implementations_eq`: the same answers.
-/

namespace TypeGraph

/-- Sorting forgets the order. -/
theorem mergeSort_eq_of_perm
    {l l' : List String}
    (h : l.Perm l') :
    (l.mergeSort fun a b => decide (a ≤ b)) = l'.mergeSort fun a b => decide (a ≤ b) := by
  refine List.Perm.eq_of_pairwise (fun a b _ _ => le_antisymm)
    (List.pairwise_mergeSort' (· ≤ ·) l) (List.pairwise_mergeSort' (· ≤ ·) l') ?_
  exact (List.mergeSort_perm l _).trans (h.trans (List.mergeSort_perm l' _).symm)

namespace Catalog

section Agreement

variable {c c' : Catalog} (h : c.Coherent) (h' : c'.Coherent) (hp : c.types.Perm c'.types)
include h h' hp

theorem Coherent.type?_eq :
    c.type? = c'.type? := by
  funext fqn
  refine Option.ext fun t => ?_
  rw [type?_eq_some_iff h.fqns_nodup, type?_eq_some_iff h'.fqns_nodup, hp.mem_iff]

/-- A key names the same type. -/
theorem Coherent.findType_eq :
    c.findType = c'.findType := by
  funext key
  unfold findType typeAt?
  rw [h.type?_eq h' hp]

theorem Coherent.keeps :
    c.Keeps c' := by
  intro fqn t ht
  rwa [← h.type?_eq h' hp]

/-- Whether a type extends another one is told alike. -/
theorem Coherent.extendsType_eq
    {t : TypeDef}
    (ht : t ∈ c.types)
    (other : TypeDef) :
    c.extendsType t other = c'.extendsType t other := by
  obtain ⟨answer, ha⟩ := h.exists_extendsType ht other
  rw [ha, (h.keeps h' hp).extendsType ha]

/-- The implementations of a type are the same. -/
theorem Coherent.implementations_eq
    (t : TypeDef) :
    c.implementations t = c'.implementations t := by
  unfold implementations
  split
  · -- the classes that extend the interface are found by one test in both orders
    have hclasses : (c.types.filter TypeDef.isClass).Perm (c'.types.filter TypeDef.isClass) :=
      hp.filter _
    have htest : ∀ u ∈ c.types.filter TypeDef.isClass,
        c.extendsType u t = .ok ((c.extendsType u t).toOption.getD false) := by
      intro u hu
      obtain ⟨answer, ha⟩ := h.exists_extendsType (List.mem_of_mem_filter hu) t
      rw [ha]
      rfl
    have htest' : ∀ u ∈ c'.types.filter TypeDef.isClass,
        c'.extendsType u t = .ok ((c.extendsType u t).toOption.getD false) := by
      intro u hu
      have hu' := hclasses.mem_iff.2 hu
      rw [← h.extendsType_eq h' hp (List.mem_of_mem_filter hu') t]
      exact htest u hu'
    rw [filterM_eq_ok htest, filterM_eq_ok htest']
    exact congrArg (fun names => Except.ok (names ++ [t.fqn]))
      (mergeSort_eq_of_perm ((hclasses.filter _).map TypeDef.fqn))
  · rfl

end Agreement

end Catalog
end TypeGraph
