import Mathlib
import TypeGraph.Proofs.Inheritance.Listings
import TypeGraph.Proofs.System.Answers
import TypeGraph.Proofs.System.Extends

/-!
# Listings are exact

What is listed above a type is what the type extends, no more and no less, and in an order that tells how
it is reached: the ancestors of a class from base to base, the interfaces by the number of links that
lead to them from what is declared along the bases.

**Results.**
* `Moment.Orderly.exists_ancestors`: the ancestors that are listed at a moment.
* `Moment.Orderly.exists_interfaces`: the interfaces that are listed at a moment.
* `TypeSystem.listings_exact`: both are exact enumerations, at every moment that is reached.
-/

namespace TypeGraph
namespace Moment

/-- An answer lists the types of one kind, other than a type itself, that this type extends, each once. -/
structure Enumerates (s : Moment) (t : TypeDef) (kind : TypeKind)
    (answer : Except Failure (List String)) (listed : List TypeDef) : Prop where
  answer_eq : answer = .ok (listed.map TypeDef.fqn)
  distinct : (listed.map TypeDef.fqn).Nodup
  mem_iff : ∀ u, u ∈ listed ↔ u ∈ s.registry.catalog.types ∧ u.kind = kind ∧ u ≠ t ∧
    s.extendsType t u = .ok true

section Orderly

variable {s : Moment} {t : TypeDef} (h : s.Orderly) (ht : t ∈ s.registry.catalog.types)
include h ht

/-- Full names are an enumeration when they are those of the types that a type inherits from. -/
theorem Orderly.enumerates
    {kind : TypeKind}
    {answer : Except Failure (List String)}
    {listed : List TypeDef}
    (hanswer : answer = .ok (listed.map TypeDef.fqn))
    (hdistinct : (listed.map TypeDef.fqn).Nodup)
    (hcommitted : ∀ u ∈ listed, u ∈ s.registry.catalog.types)
    (hnames : ∀ u ∈ s.registry.catalog.types, u.fqn ∈ listed.map TypeDef.fqn ↔
      u.kind = kind ∧ u ≠ t ∧
        Relation.ReflTransGen (Inherits s.registry.catalog.Has) t.fqn u.fqn) :
    s.Enumerates t kind answer listed := by
  refine ⟨hanswer, hdistinct, fun u => ?_⟩
  have hmem : u ∈ s.registry.catalog.types →
      (u ∈ listed ↔ u.kind = kind ∧ u ≠ t ∧ s.extendsType t u = .ok true) := by
    intro hu
    rw [← h.coherent.mem_map_fqn_iff hcommitted hu, hnames u hu, h.extendsType_iff ht hu]
  exact ⟨fun hu => ⟨hcommitted u hu, (hmem (hcommitted u hu)).1 hu⟩,
    fun ⟨hu, hextends⟩ => (hmem hu).2 hextends⟩

/-- The ancestors that are listed at a moment are the bases of a committed type one after the other. -/
theorem Orderly.exists_ancestors :
    ∃ ancestors,
      s.Enumerates t .classKind (s.answer (Query.ancestorsOf t)) ancestors ∧
      (t :: ancestors).IsChain fun a b => a.base = some b.fqn := by
  obtain ⟨above, hnames, hchain⟩ := h.coherent.exists_baseChain ht
  have hanswer := h.answer_eq (Query.recalls_ancestorsOf (h.typeNamed ht))
  have hdistinct := (List.nodup_cons.1 (hchain.fqns_nodup h.coherent ht)).2
  refine ⟨above, h.enumerates ht (hanswer.trans hnames) hdistinct hchain.mem_types fun u hu => ?_,
    hchain.isChain⟩
  rw [h.coherent.mem_ancestors_iff ht hnames, h.coherent.base_path_iff ht hu]

/-- The interfaces that are listed at a moment, for a type that declares none twice, begin with those that
it declares, and none comes before one that fewer links lead to. -/
theorem Orderly.exists_interfaces
    (hdistinct : t.interfaces.Nodup)
    (hkind : t.kind ≠ .enumKind) :
    ∃ listed,
      s.Enumerates t .interfaceKind (s.answer (Query.interfacesOf t true)) listed ∧
      t.interfaces <+: listed.map TypeDef.fqn ∧
      ∃ distance : String → Nat,
        (∀ u ∈ listed, IsLeast
          {n | Graph.InSteps (s.registry.catalog.DeclaredAlong t)
            (InterfaceLink s.registry.catalog.Has) n u.fqn} (distance u.fqn)) ∧
        listed.Pairwise fun a b => distance a.fqn ≤ distance b.fqn := by
  obtain ⟨starts, names, hnames, horder, hown, hstarts, hknown⟩ :=
    h.coherent.exists_inheritedInterfaces ht hkind
  obtain ⟨listed, rfl, hlisted⟩ := Catalog.exists_types_of_knows hknown
  have hanswer := h.answer_eq (Query.recalls_interfacesOf (h.typeNamed ht) true)
  refine ⟨listed, ?_, horder.prefix_of_nodup hown hdistinct, ?_⟩
  · refine h.enumerates ht (hanswer.trans hnames) horder.nodup (fun u hu => (hlisted u hu).1)
      fun u hu => ?_
    rw [h.coherent.mem_inheritedInterfaces_iff horder hstarts, h.coherent.interface_path_iff ht hu]
  · obtain ⟨distance, hleast, hsorted⟩ := horder.exists_distance
    have hdeclared : (· ∈ starts) = s.registry.catalog.DeclaredAlong t :=
      funext fun fqn => propext (hstarts fqn)
    rw [hdeclared, h.coherent.next_successors] at hleast
    rw [List.pairwise_map] at hsorted
    exact ⟨distance, fun u hu => hleast u.fqn (List.mem_map_of_mem hu), hsorted⟩

end Orderly

end Moment

namespace TypeSystem

/-- Sessions and whatever goes on between their actions reach moments, and each action of a session is a
sequence of steps.  At every moment that is reached, and for every type that is committed then,
* if it is a class, the listed ancestors are exactly the classes other than it that it extends, each
  once, each the base that the one before it declares, and the first one the base of the class;
* if it is a class or an interface, the listed interfaces are exactly the interfaces other than it that
  it extends, each once; those that it declares come first, in the order in which it declares them, and
  the distance of an interface, the least number of links from one interface to the next that lead there
  from one that the type or a base above it declares, is never less than the distances before it. -/
theorem listings_exact :
    (∀ actions, (after actions).moment.Reached ∧
      ∀ action, Relation.ReflTransGen Moment.Step (after actions).moment
        ((after actions).perform action).1.moment) ∧
    ∀ s : Moment, s.Reached → ∀ t ∈ s.registry.catalog.types,
      (t.kind = .classKind → ∃ ancestors,
        s.Enumerates t .classKind (s.answer (Query.ancestorsOf t)) ancestors ∧
        (t :: ancestors).IsChain fun a b => a.base = some b.fqn) ∧
      (t.kind ≠ .enumKind → ∃ listed,
        s.Enumerates t .interfaceKind (s.answer (Query.interfacesOf t true)) listed ∧
        t.interfaces <+: listed.map TypeDef.fqn ∧
        ∃ distance : String → Nat,
          (∀ u ∈ listed, IsLeast
            {n | Graph.InSteps (s.registry.catalog.DeclaredAlong t)
              (InterfaceLink s.registry.catalog.Has) n u.fqn} (distance u.fqn)) ∧
          listed.Pairwise fun a b => distance a.fqn ≤ distance b.fqn) := by
  refine ⟨fun actions => ⟨reached_after actions, (performAll_atRest actions).perform_steps⟩,
    fun s hs t ht => ⟨fun _ => hs.orderly.exists_ancestors ht, fun hkind => ?_⟩⟩
  exact hs.orderly.exists_interfaces ht (hs.wellFormed ht).members.interfaces.distinct hkind

end TypeSystem

/-- A table with a library of three interfaces, the last of which extends the first one by itself and
also through the second one, and an application with a class that implements the last one and a class
with that class for its base. -/
def layers : AnswerTable :=
  [("app", .source (.value (.object [("name", .string "app"), ("version", .string "1"),
    ("dependencies", .array [.string "lib"]),
    ("types", .object [
      ("app.Leaf", .object [("kind", .string "class"), ("base", .string "app.Root"),
        ("methods", .array [.object [("name", .string "run")]])]),
      ("app.Root", .object [("kind", .string "class"), ("interfaces", .array [.string "lib.Top"]),
        ("methods", .array [.object [("name", .string "start")],
          .object [("name", .string "run")]])])])]))),
   ("lib", .source (.value (.object [("name", .string "lib"), ("version", .string "1"),
    ("types", .object [
      ("lib.Base", .object [("kind", .string "interface"),
        ("methods", .array [.object [("name", .string "run")]])]),
      ("lib.Mid", .object [("kind", .string "interface"), ("interfaces", .array [.string "lib.Base"]),
        ("methods", .array [.object [("name", .string "run")]])]),
      ("lib.Top", .object [("kind", .string "interface"),
        ("interfaces", .array [.string "lib.Base", .string "lib.Mid"])])])])))]

/-- The application is loaded with its library. -/
def layered : TypeSystem :=
  .after [.load (AnswerTable.resolver layers) none "app"]

/-- A class has its base for an ancestor and implements what the base does, what the base declares
first. -/
theorem TypeSystem.listings_exact_of_layers :
    layered.moment.Reached ∧
      ∃ leaf ∈ layered.catalog.types, leaf.fqn = "app.Leaf" ∧ leaf.kind = .classKind ∧
        (∃ ancestors, ancestors.map TypeDef.fqn = ["app.Root"] ∧
          layered.moment.Enumerates leaf .classKind
            (layered.moment.answer (Query.ancestorsOf leaf)) ancestors ∧
          (leaf :: ancestors).IsChain fun a b => a.base = some b.fqn) ∧
        ∃ listed, listed.map TypeDef.fqn = ["lib.Top", "lib.Base", "lib.Mid"] ∧
          layered.moment.Enumerates leaf .interfaceKind
            (layered.moment.answer (Query.interfacesOf leaf true)) listed := by
  have hanswers : (layered.catalog.type? "app.Leaf").map (fun t =>
      (t.kind, layered.moment.answer (Query.ancestorsOf t),
        layered.moment.answer (Query.interfacesOf t true))) =
      some (.classKind, .ok ["app.Root"], .ok ["lib.Top", "lib.Base", "lib.Mid"]) := by
    cbv
  obtain ⟨leaf, hfind, hleaf⟩ := Option.map_eq_some_iff.1 hanswers
  simp only [Prod.mk.injEq] at hleaf
  obtain ⟨hkind, hancestors, hinterfaces⟩ := hleaf
  have hmem : leaf ∈ layered.catalog.types := List.mem_of_find?_eq_some hfind
  have hfqn : leaf.fqn = "app.Leaf" := by simpa using List.find?_some hfind
  obtain ⟨hsessions, hmoments⟩ := listings_exact
  have hreached : layered.moment.Reached := (hsessions _).1
  obtain ⟨habove, hextended⟩ := hmoments _ hreached leaf hmem
  obtain ⟨ancestors, ha, hchain⟩ := habove hkind
  obtain ⟨listed, hl, -⟩ := hextended (by simp [hkind])
  rw [ha.answer_eq] at hancestors
  rw [hl.answer_eq] at hinterfaces
  exact ⟨hreached, leaf, hmem, hfqn, hkind, ⟨ancestors, Except.ok.inj hancestors, ha, hchain⟩,
    listed, Except.ok.inj hinterfaces, hl⟩

end TypeGraph
