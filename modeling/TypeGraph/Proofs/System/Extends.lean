import Mathlib
import TypeGraph.Proofs.Inheritance.Extends
import TypeGraph.Proofs.System.Alike
import TypeGraph.Proofs.System.Chronicle
import TypeGraph.Proofs.System.Totality

/-!
# An order on the committed types

Whether a type extends another one is told in different ways for classes and for interfaces, from lists
of full names that are remembered, and yet it is one thing: links of bases and listed interfaces lead
from the one type to the other.  So it is an order on everything that is committed, across assemblies,
and what is told once is told for ever.

**Results.**
* `Moment.Orderly.extendsType_iff`: what is told at a moment.
* `TypeSystem.extends_iff_inherits`: to extend is to inherit, which is an order and does not change.
-/

namespace TypeGraph
namespace Moment

/-- Whether a type extends another one, as it is told at a moment. -/
def extendsType (s : Moment) (t u : TypeDef) : Except Failure Bool :=
  (Query.extendsType t u s.registry).map Prod.fst

section Orderly

variable {s s' : Moment} {t u v : TypeDef} (h : s.Orderly)
include h

/-- It is told as the catalog tells it. -/
theorem Orderly.extendsType_eq
    (ht : t ∈ s.registry.catalog.types) :
    s.extendsType t u = s.registry.catalog.extendsType t u :=
  (Query.recalls_extendsType (h.coherent.typeNamed_iff.2 ⟨ht, rfl⟩) u).map_fst h.sincere

variable (ht : t ∈ s.registry.catalog.types) (hu : u ∈ s.registry.catalog.types)
include ht

/-- It is told whether a committed type extends another one, and it does exactly when links lead from
the one to the other. -/
theorem Orderly.exists_extendsType
    (hu : u ∈ s.registry.catalog.types) :
    ∃ answer, s.extendsType t u = .ok answer ∧
      (answer = true ↔
        Relation.ReflTransGen (Inherits s.registry.catalog.Has) t.fqn u.fqn) := by
  obtain ⟨answer, ha⟩ := h.coherent.exists_extendsType ht u
  exact ⟨answer, (h.extendsType_eq ht).trans ha, h.coherent.extendsType_iff ht hu ha⟩

include hu

theorem Orderly.extendsType_iff :
    s.extendsType t u = .ok true ↔
      Relation.ReflTransGen (Inherits s.registry.catalog.Has) t.fqn u.fqn := by
  obtain ⟨answer, ha, hiff⟩ := h.exists_extendsType ht hu
  rw [ha, ← hiff, Except.ok.injEq]

theorem Orderly.not_extendsType_iff :
    s.extendsType t u = .ok false ↔
      ¬ Relation.ReflTransGen (Inherits s.registry.catalog.Has) t.fqn u.fqn := by
  obtain ⟨answer, ha, hiff⟩ := h.exists_extendsType ht hu
  rw [ha, ← hiff, Except.ok.injEq, Bool.not_eq_true]

/-- Two types that extend each other are one. -/
theorem Orderly.extendsType_antisymm
    (htu : s.extendsType t u = .ok true)
    (hut : s.extendsType u t = .ok true) :
    t = u := by
  rw [h.extendsType_iff ht hu] at htu
  rw [h.extendsType_iff hu ht] at hut
  rcases Relation.reflTransGen_iff_eq_or_transGen.1 htu with he | hlinks
  · exact (List.inj_on_of_nodup_map h.coherent.fqns_nodup hu ht he).symm
  · exact absurd (hlinks.trans_left hut) (h.coherent.not_inherits_cycle t.fqn)

/-- An interface extends no class. -/
theorem Orderly.not_extendsType_class
    (htkind : t.kind = .interfaceKind)
    (hukind : u.kind = .classKind) :
    s.extendsType t u = .ok false := by
  rw [h.not_extendsType_iff ht hu,
    h.coherent.inherits_of_interface_iff ⟨t, ht, rfl, htkind⟩]
  rintro ⟨-, hinterface⟩
  have hclash := h.coherent.kind_eq_of_knows hinterface hu rfl
  rw [hukind] at hclash
  cases hclash

/-- An enum extends no other type, and no other type extends it. -/
theorem Orderly.not_extendsType_enum
    (hne : t ≠ u)
    (hkind : t.kind = .enumKind ∨ u.kind = .enumKind) :
    s.extendsType t u = .ok false := by
  rw [h.not_extendsType_iff ht hu, h.coherent.inherits_enum_iff ht hu hkind]
  exact fun he => hne (List.inj_on_of_nodup_map h.coherent.fqns_nodup hu ht he).symm

/-- What is told at a moment is told at every later one. -/
theorem Orderly.extendsType_lasts
    (hs : Relation.ReflTransGen Step s s') :
    t ∈ s'.registry.catalog.types ∧ u ∈ s'.registry.catalog.types ∧
      s'.extendsType t u = s.extendsType t u := by
  have hbegins := (h.extends hs).types
  have ht' := hbegins.subset ht
  obtain ⟨answer, ha⟩ := h.coherent.exists_extendsType ht u
  rw [h.extendsType_eq ht, (h.steps hs).extendsType_eq ht', ha, (h.keeps hs).extendsType ha]
  exact ⟨ht', hbegins.subset hu, rfl⟩

end Orderly
end Moment

namespace TypeSystem

/-- Sessions and whatever goes on between their actions reach moments, and each action of a session is a
sequence of steps.  At every moment that is reached, and for all types that are committed then,
* it is told whether the one extends the other, and it does exactly when it is reached from the one in
  any number of steps, each from a class to the base that it declares or from a class or an interface to
  an interface that it lists;
* this is an order: a type extends itself, what it extends extends nothing that it does not extend
  itself, and of two different types only one extends the other;
* an interface does not extend a class, and an enum and another type do not extend each other;
* at all later moments both types are committed still and the same is told of them. -/
theorem extends_iff_inherits :
    (∀ actions, (after actions).moment.Reached ∧
      ∀ action, Relation.ReflTransGen Moment.Step (after actions).moment
        ((after actions).perform action).1.moment) ∧
    ∀ s : Moment, s.Reached →
      (∀ t ∈ s.registry.catalog.types, ∀ u ∈ s.registry.catalog.types,
        (∃ answer, s.extendsType t u = .ok answer ∧
          (answer = true ↔
            Relation.ReflTransGen (Inherits s.registry.catalog.Has) t.fqn u.fqn)) ∧
        (s.extendsType t u = .ok true → s.extendsType u t = .ok true → t = u) ∧
        (t.kind = .interfaceKind → u.kind = .classKind → s.extendsType t u = .ok false) ∧
        (t ≠ u → t.kind = .enumKind ∨ u.kind = .enumKind → s.extendsType t u = .ok false) ∧
        ∀ s', Relation.ReflTransGen Moment.Step s s' →
          t ∈ s'.registry.catalog.types ∧ u ∈ s'.registry.catalog.types ∧
            s'.extendsType t u = s.extendsType t u) ∧
      (∀ t ∈ s.registry.catalog.types, s.extendsType t t = .ok true) ∧
      ∀ t ∈ s.registry.catalog.types, ∀ u ∈ s.registry.catalog.types,
        ∀ v ∈ s.registry.catalog.types,
          s.extendsType t u = .ok true → s.extendsType u v = .ok true →
            s.extendsType t v = .ok true := by
  refine ⟨fun actions => ⟨reached_after actions, (performAll_atRest actions).perform_steps⟩,
    fun s hs => ?_⟩
  have h := hs.orderly
  refine ⟨fun t ht u hu => ⟨h.exists_extendsType ht hu, h.extendsType_antisymm ht hu,
    h.not_extendsType_class ht hu, h.not_extendsType_enum ht hu,
    fun s' hsteps => h.extendsType_lasts ht hu hsteps⟩, ?_, ?_⟩
  · exact fun t ht => (h.extendsType_iff ht ht).2 .refl
  · intro t ht u hu v hv htu huv
    rw [h.extendsType_iff ht hu] at htu
    rw [h.extendsType_iff hu hv] at huv
    exact (h.extendsType_iff ht hv).2 (htu.trans huv)

/-- The class of the application extends the interface in the library, which its base lists; the
interface does not extend the class. -/
theorem extends_iff_inherits_of_figures :
    drawn.moment.Reached ∧
      ∃ circle ∈ drawn.catalog.types, ∃ shape ∈ drawn.catalog.types,
        circle.fqn = "app.Circle" ∧ shape.fqn = "lib.Shape" ∧
        drawn.moment.extendsType circle shape = .ok true ∧
        drawn.moment.extendsType shape circle = .ok false := by
  have hnamed : (["app.Circle", "lib.Figure", "lib.Shape"].map fun fqn =>
      (drawn.catalog.type? fqn).map fun t => (t.kind, t.base, t.interfaces)) =
      [some (.classKind, some "lib.Figure", []), some (.classKind, none, ["lib.Shape"]),
        some (.interfaceKind, none, [])] := by
    cbv
  have hfind : ∀ {fqn found}, (drawn.catalog.type? fqn).map
      (fun t => (t.kind, t.base, t.interfaces)) = some found →
      ∃ t ∈ drawn.catalog.types, t.fqn = fqn ∧ (t.kind, t.base, t.interfaces) = found := by
    intro fqn found hfound
    obtain ⟨t, ht, he⟩ := Option.map_eq_some_iff.1 hfound
    exact ⟨t, List.mem_of_find?_eq_some ht, by simpa using List.find?_some ht, he⟩
  simp only [List.map_cons, List.map_nil, List.cons.injEq, and_true] at hnamed
  obtain ⟨hcircle, hfigure, hshape⟩ := hnamed
  obtain ⟨circle, hc, hcname, hcdeclared⟩ := hfind hcircle
  obtain ⟨figure, hf, hfname, hfdeclared⟩ := hfind hfigure
  obtain ⟨shape, hs, hsname, hsdeclared⟩ := hfind hshape
  simp only [Prod.mk.injEq] at hcdeclared hfdeclared hsdeclared
  obtain ⟨hsessions, hmoments⟩ := extends_iff_inherits
  have hreached : drawn.moment.Reached := (hsessions _).1
  obtain ⟨htold, -, -⟩ := hmoments _ hreached
  have hi := hreached.orderly.coherent.toIndexed
  have hbase : Inherits drawn.catalog.Has "app.Circle" "lib.Figure" :=
    Or.inl (hcname ▸ (hi.baseLink_iff hc).2 hcdeclared.2.1)
  have hlisted : Inherits drawn.catalog.Has "lib.Figure" "lib.Shape" :=
    Or.inr (hfname ▸ (hi.interfaceLink_iff hf).2 (by simp [hfdeclared.2.2]))
  obtain ⟨⟨answer, hanswer, hiff⟩, -⟩ := htold circle hc shape hs
  obtain ⟨-, -, hnever, -⟩ := htold shape hs circle hc
  rw [hcname, hsname] at hiff
  rw [hiff.2 (.head hbase (.single hlisted))] at hanswer
  exact ⟨hreached, circle, hc, shape, hs, hcname, hsname, hanswer,
    hnever hsdeclared.1 hcdeclared.1⟩

end TypeSystem
end TypeGraph
