import Mathlib
import TypeGraph.Proofs.Inheritance.Members
import TypeGraph.Proofs.System.Answers
import TypeGraph.Proofs.System.Extends
import TypeGraph.Proofs.System.Listings

/-!
# Inherited members, one for each name

The members of a type with all that it inherits are those of its owners under names that no earlier owner
declares.  For a class the owners come from base to base, so the member that is kept of each name is the
one of the nearest class.  For an interface they come in breadth-first order, and what is kept of each
name is what is met first.  That is most often what is declared nearest to it in the sense of inheritance,
but not where an interface is extended directly and also through another one that declares the name anew:
then the older declaration is kept.

**Results.**
* `TypeSystem.inherited_members_collapse`: what is listed at every moment that is reached.
* `TypeSystem.overridden_only_past_detour`: when an overridden member is listed.
* `TypeSystem.exists_overridden`: an interface where this happens.
-/

namespace TypeGraph

/-- Members with their owners are those of a lineage under names that no earlier owner declares: each
name that is declared is there once, the members of the type itself come first, and each member is with
the first owner that declares its name. -/
structure Collapsed {α : Type} (name : α → String) (members : TypeDef → List α) (t : TypeDef)
    (owners : List TypeDef) (entries : List (TypeDef × α)) : Prop where
  eq_introduced : entries = introduced name members owners
  once : ∀ owner ∈ owners, ∀ m ∈ members owner,
    (entries.map fun entry => name entry.2).count (name m) = 1
  own : ((members t).map fun m => (t, m)) <+: entries
  mem_iff : ∀ entry, entry ∈ entries ↔ ∃ before after, owners = before ++ entry.1 :: after ∧
    entry.2 ∈ members entry.1 ∧ ∀ earlier ∈ before, ¬ Declares name members earlier (name entry.2)

/-- What owners that start with a type introduce, where none of them has two members of a name. -/
theorem collapsed_introduced
    {α : Type}
    {name : α → String}
    {members : TypeDef → List α}
    {t : TypeDef}
    {rest : List TypeDef}
    (h : ∀ owner ∈ t :: rest, ((members owner).map name).Nodup) :
    Collapsed name members t (t :: rest) (introduced name members (t :: rest)) := by
  refine ⟨rfl, fun owner howner m hm => ?_, prefix_introduced t rest, fun _ => mem_introduced_iff⟩
  refine List.count_eq_one_of_mem (names_introduced_nodup h) ?_
  exact mem_names_introduced_iff.2 ⟨owner, howner, List.mem_map_of_mem hm⟩

namespace Moment

/-- Among the types of its kind that a type extends, one declares the name of a member anew and extends
the other one that has the member. -/
structure Overrides {α : Type} (s : Moment) (name : α → String) (members : TypeDef → List α)
    (t derived : TypeDef) (entry : TypeDef × α) : Prop where
  committed : derived ∈ s.registry.catalog.types
  kind_eq : derived.kind = t.kind
  extended : s.extendsType t derived = .ok true
  other : derived ≠ entry.1
  declares : Declares name members derived (name entry.2)
  extends_owner : s.extendsType derived entry.1 = .ok true

/-- No member of a class is overridden, and one of an interface only past a detour. -/
structure Attributes {α : Type} (s : Moment) (name : α → String) (members : TypeDef → List α)
    (t : TypeDef) (entries : List (TypeDef × α)) : Prop where
  of_class : t.kind = .classKind → ∀ entry ∈ entries, ∀ derived,
    ¬ s.Overrides name members t derived entry
  of_interface : t.kind = .interfaceKind → ∀ entry ∈ entries, ∀ derived,
    s.Overrides name members t derived entry → s.registry.catalog.Detour t derived entry.1

/-- The members of a class or an interface are what its lineage introduces. -/
theorem Reached.exists_lineage
    {s : Moment}
    {t : TypeDef}
    (h : s.Reached)
    (ht : t ∈ s.registry.catalog.types)
    (hkind : t.kind ≠ .enumKind) :
    ∃ owners, s.registry.catalog.Lineage t owners ∧ (∃ rest, owners = t :: rest) ∧
      (∀ owner ∈ owners, owner.members.WellFormed) ∧
      s.answer (Query.methodsOf t true) = .ok (introduced Method.name TypeDef.methods owners) ∧
      s.answer (Query.propertiesOf t true) =
        .ok (introduced Property.name TypeDef.properties owners) := by
  have horderly := h.orderly
  have hfind := horderly.typeNamed ht
  obtain ⟨owners, howners, hlineage⟩ := horderly.coherent.exists_lineage ht hkind
  have hformed : ∀ owner ∈ owners, owner.members.WellFormed :=
    fun owner ho => (h.wellFormed (hlineage.mem_types ht owner ho)).members
  have hmethods : collapseMethods owners = introduced Method.name TypeDef.methods owners :=
    collapse_eq_introduced fun owner ho => (hformed owner ho).methodNames.distinct
  have hproperties : collapseProperties owners = introduced Property.name TypeDef.properties owners :=
    collapse_eq_introduced fun owner ho => (hformed owner ho).propertyNames.distinct
  refine ⟨owners, hlineage, hlineage.exists_cons horderly.coherent.toIndexed ht, hformed, ?_, ?_⟩
  · rw [horderly.answer_eq (Query.recalls_methodsOf hfind true), ← hmethods]
    exact bind_eq_ok_iff.2 ⟨owners, howners, rfl⟩
  · rw [horderly.answer_eq (Query.recalls_propertiesOf hfind true), ← hproperties]
    exact bind_eq_ok_iff.2 ⟨owners, howners, rfl⟩

section Attributes

variable {s : Moment} {t : TypeDef} {owners : List TypeDef} {α : Type} {name : α → String}
  {members : TypeDef → List α}
  (h : s.Orderly) (ht : t ∈ s.registry.catalog.types)
  (hlineage : s.registry.catalog.Lineage t owners)
include h ht hlineage

/-- What relates the owners of a lineage that extend an earlier one to it relates a type that overrides a
listed member to the owner of the member. -/
theorem Orderly.rel_of_overrides
    {R : TypeDef → TypeDef → Prop}
    (hpair : owners.Pairwise fun earlier later =>
      Relation.ReflTransGen (Inherits s.registry.catalog.Has) later.fqn earlier.fqn → R earlier later)
    {entry : TypeDef × α}
    (hentry : entry ∈ introduced name members owners)
    {derived : TypeDef}
    (ho : s.Overrides name members t derived entry) :
    R entry.1 derived := by
  have hpath := (h.extendsType_iff ht ho.committed).1 ho.extended
  have hmem := (hlineage.mem_iff h.coherent ht ho.committed).2 ⟨ho.kind_eq, hpath⟩
  have howner : entry.1 ∈ s.registry.catalog.types := by
    obtain ⟨before, after, howners, -⟩ := mem_introduced_iff.1 hentry
    exact hlineage.mem_types ht entry.1 (by simp [howners])
  exact rel_of_mem_introduced hpair hentry hmem ho.other ho.declares
    ((h.extendsType_iff ho.committed howner).1 ho.extends_owner)

/-- The members that a lineage introduces are attributed to what is not overridden, but for detours. -/
theorem Orderly.attributes :
    s.Attributes name members t (introduced name members owners) where
  of_class hclass _ hentry _ :=
    h.rel_of_overrides ht hlineage (hlineage.pairwise_of_class h.coherent ht hclass) hentry
  of_interface hinterface _ hentry _ :=
    h.rel_of_overrides ht hlineage (hlineage.pairwise_of_interface h.coherent ht hinterface) hentry

end Attributes
end Moment

namespace TypeSystem

/-- Sessions and whatever goes on between their actions reach moments, and each action of a session is a
sequence of steps.  At every moment that is reached, the methods of a committed class or interface with
all that it inherits, and likewise its properties, are found by going through its lineage, which is the
class and the bases above it, the nearest first, or the interface and all that it extends in breadth-first
order.  Of each owner those are listed, in the order of its declarations, whose names no earlier owner
declares.  So each name that is declared in the lineage is listed once, and with the first owner that
declares it, and the members of the type itself come first. -/
theorem inherited_members_collapse :
    (∀ actions, (after actions).moment.Reached ∧
      ∀ action, Relation.ReflTransGen Moment.Step (after actions).moment
        ((after actions).perform action).1.moment) ∧
    ∀ s : Moment, s.Reached → ∀ t ∈ s.registry.catalog.types, t.kind ≠ .enumKind →
      ∃ owners, s.registry.catalog.Lineage t owners ∧
        (∃ methods, s.answer (Query.methodsOf t true) = .ok methods ∧
          Collapsed Method.name TypeDef.methods t owners methods) ∧
        ∃ properties, s.answer (Query.propertiesOf t true) = .ok properties ∧
          Collapsed Property.name TypeDef.properties t owners properties := by
  refine ⟨fun actions => ⟨reached_after actions, (performAll_atRest actions).perform_steps⟩,
    fun s hs t ht hkind => ?_⟩
  obtain ⟨_, hlineage, ⟨rest, rfl⟩, hformed, hmethods, hproperties⟩ := hs.exists_lineage ht hkind
  exact ⟨t :: rest, hlineage,
    ⟨_, hmethods, collapsed_introduced fun owner ho => (hformed owner ho).methodNames.distinct⟩,
    _, hproperties, collapsed_introduced fun owner ho => (hformed owner ho).propertyNames.distinct⟩

/-- A class has its own method and the one of its base that it does not declare itself. -/
theorem inherited_members_collapse_of_layers :
    layered.moment.Reached ∧
      ∃ leaf ∈ layered.catalog.types, leaf.fqn = "app.Leaf" ∧ leaf.kind = .classKind ∧
        ∃ owners methods, layered.catalog.Lineage leaf owners ∧
          layered.moment.answer (Query.methodsOf leaf true) = .ok methods ∧
          Collapsed Method.name TypeDef.methods leaf owners methods ∧
          methods.map (fun entry => (entry.1.fqn, entry.2.name)) =
            [("app.Leaf", "run"), ("app.Root", "start")] := by
  have hanswers : (layered.catalog.type? "app.Leaf").map (fun t =>
      (t.kind, (layered.moment.answer (Query.methodsOf t true)).map fun methods =>
        methods.map fun entry => (entry.1.fqn, entry.2.name))) =
      some (.classKind, .ok [("app.Leaf", "run"), ("app.Root", "start")]) := by
    cbv
  obtain ⟨leaf, hfind, hleaf⟩ := Option.map_eq_some_iff.1 hanswers
  obtain ⟨hkind, hnames⟩ := Prod.mk.inj hleaf
  have hmem : leaf ∈ layered.catalog.types := List.mem_of_find?_eq_some hfind
  have hfqn : leaf.fqn = "app.Leaf" := by simpa using List.find?_some hfind
  obtain ⟨hsessions, hmoments⟩ := inherited_members_collapse
  have hreached : layered.moment.Reached := (hsessions _).1
  obtain ⟨owners, hlineage, ⟨methods, hmethods, hcollapsed⟩, -⟩ :=
    hmoments _ hreached leaf hmem (by simp [hkind])
  rw [hmethods] at hnames
  exact ⟨hreached, leaf, hmem, hfqn, hkind, owners, methods, hlineage, hmethods, hcollapsed,
    Except.ok.inj hnames⟩

/-- At every moment that is reached, and among the methods of a committed class or interface with all that
it inherits, and likewise among its properties,
* no member of a class is overridden by another class above the class;
* a member of an interface is overridden by another interface that the interface extends only past a
  detour: links of different numbers lead from the interface to the one that has the member, and no way to
  the one that overrides it is shorter than the shortest of these.

So nothing is overridden where all ways from an interface to another one are equally long. -/
theorem overridden_only_past_detour
    {s : Moment}
    (hs : s.Reached)
    {t : TypeDef}
    (ht : t ∈ s.registry.catalog.types)
    (hkind : t.kind ≠ .enumKind) :
    (∃ methods, s.answer (Query.methodsOf t true) = .ok methods ∧
      s.Attributes Method.name TypeDef.methods t methods) ∧
    ∃ properties, s.answer (Query.propertiesOf t true) = .ok properties ∧
      s.Attributes Property.name TypeDef.properties t properties := by
  obtain ⟨owners, hlineage, -, -, hmethods, hproperties⟩ := hs.exists_lineage ht hkind
  exact ⟨⟨_, hmethods, hs.orderly.attributes ht hlineage⟩,
    _, hproperties, hs.orderly.attributes ht hlineage⟩

/-- An interface extends another one by itself and through a third one that declares the method of the
former anew, and still has the method of the former. -/
theorem exists_overridden :
    ∃ top ∈ layered.catalog.types, top.kind = .interfaceKind ∧
      ∃ methods, layered.moment.answer (Query.methodsOf top true) = .ok methods ∧
        ∃ entry ∈ methods, ∃ mid,
          (top.fqn, mid.fqn, entry.1.fqn, entry.2.name) = ("lib.Top", "lib.Mid", "lib.Base", "run") ∧
          layered.moment.Overrides Method.name TypeDef.methods top mid entry := by
  have hanswers : (layered.catalog.type? "lib.Top").bind (fun top =>
      (layered.catalog.type? "lib.Mid").map fun mid =>
        (top.kind, mid.kind, layered.moment.extendsType top mid, mid.methods.map Method.name,
          (layered.moment.answer (Query.methodsOf top true)).map fun methods =>
            methods.map fun entry =>
              (entry.1.fqn, entry.2.name, layered.moment.extendsType mid entry.1))) =
      some (.interfaceKind, .interfaceKind, .ok true, ["run"],
        .ok [("lib.Base", "run", .ok true)]) := by
    cbv
  obtain ⟨top, htop, hrest⟩ := Option.bind_eq_some_iff.1 hanswers
  obtain ⟨mid, hmid, hfound⟩ := Option.map_eq_some_iff.1 hrest
  simp only [Prod.mk.injEq] at hfound
  obtain ⟨hkind, hmidkind, hextended, hnames, hentries⟩ := hfound
  have hmem : top ∈ layered.catalog.types := List.mem_of_find?_eq_some htop
  have htopfqn : top.fqn = "lib.Top" := by simpa using List.find?_some htop
  have hmidfqn : mid.fqn = "lib.Mid" := by simpa using List.find?_some hmid
  have hreached : layered.moment.Reached := reached_after _
  obtain ⟨owners, -, -, -, hmethods, -⟩ := hreached.exists_lineage hmem (by simp [hkind])
  rw [hmethods] at hentries
  obtain ⟨entry, hsingle, hentry⟩ := List.map_eq_singleton_iff.1 (Except.ok.inj hentries)
  simp only [Prod.mk.injEq] at hentry
  obtain ⟨hbase, hrun, hextends⟩ := hentry
  refine ⟨top, hmem, hkind, _, hmethods, entry, by simp [hsingle], mid,
    by rw [htopfqn, hmidfqn, hbase, hrun], List.mem_of_find?_eq_some hmid, hmidkind.trans hkind.symm,
    hextended, ?_, ?_, hextends⟩
  · rintro rfl
    rw [hbase] at hmidfqn
    exact absurd hmidfqn (by decide)
  · rw [Declares, hnames, hrun]
    exact List.mem_singleton.2 rfl

/-- It has the method of the former past a detour. -/
theorem overridden_only_past_detour_of_layers :
    layered.moment.Reached ∧
      ∃ top ∈ layered.catalog.types, ∃ methods mid entry,
        layered.moment.answer (Query.methodsOf top true) = .ok methods ∧ entry ∈ methods ∧
        (top.fqn, mid.fqn, entry.1.fqn, entry.2.name) = ("lib.Top", "lib.Mid", "lib.Base", "run") ∧
        layered.moment.Overrides Method.name TypeDef.methods top mid entry ∧
        layered.catalog.Detour top mid entry.1 := by
  obtain ⟨top, hmem, hkind, methods, hmethods, entry, hentry, mid, hnames, ho⟩ := exists_overridden
  have hreached : layered.moment.Reached := reached_after _
  obtain ⟨⟨methods', hmethods', hattributes⟩, -⟩ :=
    overridden_only_past_detour hreached hmem (by simp [hkind])
  obtain rfl : methods = methods' := Except.ok.inj (hmethods.symm.trans hmethods')
  exact ⟨hreached, top, hmem, methods, mid, entry, hmethods, hentry, hnames, ho,
    hattributes.of_interface hkind entry hentry mid ho⟩

/-- So it does not hold of every interface that none of its methods is overridden. -/
theorem overridden_method_listed :
    ¬ ∀ s : Moment, s.Reached → ∀ t ∈ s.registry.catalog.types, t.kind ≠ .enumKind →
      ∀ methods, s.answer (Query.methodsOf t true) = .ok methods →
        ∀ entry ∈ methods, ∀ derived, ¬ s.Overrides Method.name TypeDef.methods t derived entry := by
  intro hclaim
  obtain ⟨top, hmem, hkind, methods, hmethods, entry, hentry, mid, -, ho⟩ := exists_overridden
  exact hclaim layered.moment (reached_after _) top hmem (by simp [hkind]) methods hmethods entry hentry
    mid ho

end TypeSystem
end TypeGraph
