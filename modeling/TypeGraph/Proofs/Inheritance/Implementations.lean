import Mathlib.Data.List.Sort
import Mathlib.Data.String.Basic
import TypeGraph.Proofs.Inheritance.Agreement
import TypeGraph.Proofs.Inheritance.Extends

/-!
# Implementations of an interface

The implementations of an interface are found by asking every committed class whether it extends the
interface.  Their full names are sorted, and as they differ from each other they ascend strictly; the
interface itself comes last.  An ascending list is determined by what is in it, so two of them agree as
soon as their elements do, and one is left of the other when its elements are.

**Results.**
* `pairwise_lt_mergeSort`: names that differ ascend strictly when they are sorted.
* `Catalog.Coherent.exists_sortedImplementations`: the implementations of a committed interface.
* `sublist_of_ascending`: an ascending list is a part of another one that has its elements.
-/

namespace TypeGraph

/-- Names that differ from each other ascend strictly when they are sorted. -/
theorem pairwise_lt_mergeSort
    {l : List String}
    (h : l.Nodup) :
    (l.mergeSort fun a b => decide (a ≤ b)).Pairwise (· < ·) := by
  have hdistinct : (l.mergeSort fun a b => decide (a ≤ b)).Nodup :=
    (List.mergeSort_perm l _).nodup_iff.2 h
  have hsorted := List.pairwise_mergeSort' (· ≤ ·) l
  exact (hsorted.and hdistinct).imp fun ⟨hle, hne⟩ => lt_of_le_of_ne hle hne

/-- An ascending list is a part of another one that has all its elements. -/
theorem sublist_of_ascending
    {l l' : List String}
    (h : l.Pairwise (· < ·))
    (h' : l'.Pairwise (· < ·))
    (hsub : l ⊆ l') :
    l.Sublist l' :=
  List.sublist_of_subperm_of_pairwise
    (List.subperm_of_subset (h.imp fun hlt => ne_of_lt hlt) hsub) h h'

namespace Catalog

variable {c : Catalog} {t : TypeDef}

/-- The classes that inherit from a committed interface are those that are found to extend it. -/
theorem Coherent.exists_implementingClasses
    (h : c.Coherent)
    (ht : t ∈ c.types) :
    ∃ classes, (c.types.filter TypeDef.isClass).filterM (fun u => c.extendsType u t) = .ok classes ∧
      (classes.map TypeDef.fqn).Nodup ∧
      ∀ u, u ∈ classes ↔ u ∈ c.types ∧ u.kind = .classKind ∧
        Relation.ReflTransGen (Inherits c.Has) u.fqn t.fqn := by
  classical
  have htest : ∀ u ∈ c.types.filter TypeDef.isClass, c.extendsType u t =
      .ok (decide (Relation.ReflTransGen (Inherits c.Has) u.fqn t.fqn)) := by
    intro u hu
    have hcommitted := List.mem_of_mem_filter hu
    obtain ⟨answer, ha⟩ := h.exists_extendsType hcommitted t
    rw [ha, Except.ok.injEq, Bool.eq_iff_iff, decide_eq_true_eq]
    exact h.extendsType_iff hcommitted ht ha
  refine ⟨_, filterM_eq_ok htest, ?_, fun u => ?_⟩
  · exact h.fqns_nodup.sublist ((List.filter_sublist.trans List.filter_sublist).map TypeDef.fqn)
  · simp only [List.mem_filter, TypeDef.isClass, beq_iff_eq, decide_eq_true_eq, and_assoc]

/-- The implementations of a committed interface are the full names of the classes that inherit from it
in ascending order, and then its own. -/
theorem Coherent.exists_sortedImplementations
    (h : c.Coherent)
    (ht : t ∈ c.types)
    (hkind : t.kind = .interfaceKind) :
    ∃ classes : List String, c.implementations t = .ok (classes ++ [t.fqn]) ∧
      classes.Pairwise (· < ·) ∧
      ∀ fqn, fqn ∈ classes ↔ ∃ u ∈ c.types, u.kind = .classKind ∧ u.fqn = fqn ∧
        Relation.ReflTransGen (Inherits c.Has) u.fqn t.fqn := by
  obtain ⟨classes, hclasses, hdistinct, hmem⟩ := h.exists_implementingClasses ht
  refine ⟨_, ?_, pairwise_lt_mergeSort hdistinct, fun fqn => ?_⟩
  · unfold implementations
    rw [hkind]
    exact bind_eq_ok_iff.2 ⟨classes, hclasses, rfl⟩
  · simp only [List.mem_mergeSort, List.mem_map, hmem]
    constructor
    · rintro ⟨u, ⟨hu, hclass, hpath⟩, rfl⟩
      exact ⟨u, hu, hclass, rfl, hpath⟩
    · rintro ⟨u, hu, hclass, rfl, hpath⟩
      exact ⟨u, ⟨hu, hclass, hpath⟩, rfl⟩

end Catalog
end TypeGraph
