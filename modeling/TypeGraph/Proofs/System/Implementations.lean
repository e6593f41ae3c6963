import Mathlib
import TypeGraph.Proofs.Inheritance.Implementations
import TypeGraph.Proofs.System.Answers
import TypeGraph.Proofs.System.Extends
import TypeGraph.Proofs.System.Listings
import TypeGraph.Proofs.System.Memoisation

/-!
# Implementations are complete

The implementations of an interface are remembered until the next commit, so at every moment they are
those of all the types that are committed then, whichever assemblies these came from and whether they
implement the interface by themselves, through a base or through another interface.  Commits only add to
them.

**Results.**
* `Moment.Orderly.exists_implementations`: the implementations that are listed at a moment.
* `Moment.Orderly.implementations_grow`: at later moments more are listed.
* `TypeSystem.implementations_complete`: both, at every moment that is reached.
-/

namespace TypeGraph
namespace Moment

/-- Some full names in strictly ascending order are those of the committed classes that extend a type. -/
structure Implements (s : Moment) (t : TypeDef) (classes : List String) : Prop where
  ascending : classes.Pairwise (· < ·)
  mem_iff : ∀ fqn, fqn ∈ classes ↔ ∃ u ∈ s.registry.catalog.types, u.kind = .classKind ∧
    u.fqn = fqn ∧ s.extendsType u t = .ok true

section Orderly

variable {s s' : Moment} {t u : TypeDef} (h : s.Orderly) (ht : t ∈ s.registry.catalog.types)
include h ht

/-- The implementations of an interface that are listed at a moment are the classes that extend it, and
the interface at the end. -/
theorem Orderly.exists_implementations
    (hkind : t.kind = .interfaceKind) :
    ∃ classes, s.answer (Query.implementations t) = .ok (classes ++ [t.fqn]) ∧
      s.Implements t classes := by
  obtain ⟨classes, hnames, hascending, hmem⟩ := h.coherent.exists_sortedImplementations ht hkind
  have hanswer := h.answer_eq (Query.recalls_implementations (h.typeNamed ht) h.coherent.toIndexed)
  refine ⟨classes, hanswer.trans hnames, hascending, fun fqn => (hmem fqn).trans ?_⟩
  refine exists_congr fun u => and_congr_right fun hu => ?_
  rw [h.extendsType_iff hu ht]

/-- The full name of an interface is not that of a class. -/
theorem Orderly.fqn_not_mem
    (hkind : t.kind = .interfaceKind)
    {classes : List String}
    (hclasses : s.Implements t classes) :
    t.fqn ∉ classes := by
  intro hmem
  obtain ⟨u, hu, hclass, he, -⟩ := (hclasses.mem_iff t.fqn).1 hmem
  rw [List.inj_on_of_nodup_map h.coherent.fqns_nodup hu ht he, hkind] at hclass
  cases hclass

/-- A class extends an interface exactly when the interface is listed among those of the class. -/
theorem Orderly.extendsType_iff_mem_interfaces
    (hkind : t.kind = .interfaceKind)
    (hu : u ∈ s.registry.catalog.types)
    (hclass : u.kind = .classKind)
    (hdistinct : u.interfaces.Nodup) :
    ∃ names, s.answer (Query.interfacesOf u true) = .ok names ∧
      (t.fqn ∈ names ↔ s.extendsType u t = .ok true) := by
  obtain ⟨listed, hl, -⟩ := h.exists_interfaces hu hdistinct (by simp [hclass])
  have hne : t ≠ u := by
    rintro rfl
    rw [hkind] at hclass
    cases hclass
  refine ⟨_, hl.answer_eq, ?_⟩
  rw [h.coherent.mem_map_fqn_iff (fun v hv => ((hl.mem_iff v).1 hv).1) ht, hl.mem_iff]
  exact ⟨fun hmem => hmem.2.2.2, fun hextends => ⟨ht, hkind, hne, hextends⟩⟩

/-- The classes that are listed at a moment are listed at every later one. -/
theorem Orderly.implementations_grow
    (hs : Relation.ReflTransGen Step s s')
    {classes classes' : List String}
    (hc : s.Implements t classes)
    (hc' : s'.Implements t classes') :
    classes.Sublist classes' := by
  refine sublist_of_ascending hc.ascending hc'.ascending fun fqn hfqn => ?_
  obtain ⟨u, hu, hclass, he, hextends⟩ := (hc.mem_iff fqn).1 hfqn
  obtain ⟨hu', -, hlasts⟩ := h.extendsType_lasts hu ht hs
  exact (hc'.mem_iff fqn).2 ⟨u, hu', hclass, he, hlasts.trans hextends⟩

end Orderly
end Moment

namespace TypeSystem

/-- Sessions and whatever goes on between their actions reach moments, and each action of a session is a
sequence of steps.  At every moment that is reached, and for every interface that is committed then,
* the implementations that are listed are the full names of the committed classes that extend the
  interface, in strictly ascending order, and then its own, which is not among them;
* a committed class extends the interface exactly when the interface is among the listed interfaces of
  the class;
* at every later moment the listed classes are among those that are listed then, in the same order. -/
theorem implementations_complete :
    (∀ actions, (after actions).moment.Reached ∧
      ∀ action, Relation.ReflTransGen Moment.Step (after actions).moment
        ((after actions).perform action).1.moment) ∧
    ∀ s : Moment, s.Reached → ∀ t ∈ s.registry.catalog.types, t.kind = .interfaceKind →
      ∃ classes, s.answer (Query.implementations t) = .ok (classes ++ [t.fqn]) ∧
        s.Implements t classes ∧ t.fqn ∉ classes ∧
        (∀ u ∈ s.registry.catalog.types, u.kind = .classKind →
          ∃ names, s.answer (Query.interfacesOf u true) = .ok names ∧
            (t.fqn ∈ names ↔ s.extendsType u t = .ok true)) ∧
        ∀ s', Relation.ReflTransGen Moment.Step s s' →
          ∃ classes', s'.answer (Query.implementations t) = .ok (classes' ++ [t.fqn]) ∧
            classes.Sublist classes' := by
  refine ⟨fun actions => ⟨reached_after actions, (performAll_atRest actions).perform_steps⟩,
    fun s hs t ht hkind => ?_⟩
  have h := hs.orderly
  obtain ⟨classes, hanswer, hclasses⟩ := h.exists_implementations ht hkind
  refine ⟨classes, hanswer, hclasses, h.fqn_not_mem ht hkind hclasses, fun u hu hclass => ?_,
    fun s' hsteps => ?_⟩
  · exact h.extendsType_iff_mem_interfaces ht hkind hu hclass
      (hs.wellFormed hu).members.interfaces.distinct
  · have ht' := (h.extends hsteps).types.subset ht
    obtain ⟨classes', hanswer', hclasses'⟩ := (h.steps hsteps).exists_implementations ht' hkind
    exact ⟨classes', hanswer', h.implementations_grow ht hsteps hclasses hclasses'⟩

/-- The interface is asked about before the class that implements it is loaded, and again after that. -/
theorem implementations_complete_of_implementedInterface :
    askedInterface.moment.Reached ∧ grownInterface.moment.Reached ∧
      ∃ shape ∈ askedInterface.catalog.types, shape.fqn = "lib.Shape" ∧
        shape.kind = .interfaceKind ∧
        askedInterface.moment.answer (Query.implementations shape) = .ok ["lib.Shape"] ∧
        askedInterface.moment.Implements shape [] ∧
        shape ∈ grownInterface.catalog.types ∧
        grownInterface.moment.answer (Query.implementations shape) =
          .ok ["app.Circle", "lib.Shape"] ∧
        grownInterface.moment.Implements shape ["app.Circle"] := by
  have hanswers : (askedInterface.catalog.type? "lib.Shape").map (fun t =>
      (t.kind, askedInterface.moment.answer (Query.implementations t),
        grownInterface.moment.answer (Query.implementations t))) =
      some (.interfaceKind, .ok ["lib.Shape"], .ok ["app.Circle", "lib.Shape"]) := by
    cbv
  obtain ⟨shape, hfind, hshape⟩ := Option.map_eq_some_iff.1 hanswers
  simp only [Prod.mk.injEq] at hshape
  obtain ⟨hkind, hbefore, hafter⟩ := hshape
  have hmem : shape ∈ askedInterface.catalog.types := List.mem_of_find?_eq_some hfind
  have hfqn : shape.fqn = "lib.Shape" := by simpa using List.find?_some hfind
  obtain ⟨hsessions, hmoments⟩ := implementations_complete
  have hasked : askedInterface.moment.Reached := (hsessions _).1
  have hsteps : Relation.ReflTransGen Moment.Step askedInterface.moment grownInterface.moment :=
    (hsessions _).2 _
  have hgrown : grownInterface.moment.Reached := hasked.trans hsteps
  have hmem' : shape ∈ grownInterface.catalog.types := (hasked.orderly.extends hsteps).types.subset hmem
  obtain ⟨before, hb, himplements, -⟩ := hmoments _ hasked shape hmem hkind
  obtain ⟨later, hl, himplements', -⟩ := hmoments _ hgrown shape hmem' hkind
  rw [hfqn] at hb hl
  rw [hb] at hbefore
  rw [hl] at hafter
  obtain rfl : before = [] := List.append_cancel_right (Except.ok.inj hbefore)
  obtain rfl : later = ["app.Circle"] :=
    List.append_cancel_right (Except.ok.inj hafter : later ++ _ = ["app.Circle"] ++ ["lib.Shape"])
  exact ⟨hasked, hgrown, shape, hmem, hfqn, hkind, hb, himplements, hmem', hl, himplements'⟩

end TypeSystem
end TypeGraph
