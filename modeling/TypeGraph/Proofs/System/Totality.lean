import Mathlib
import TypeGraph.Proofs.Inheritance.Total
import TypeGraph.Proofs.System.Alike
import TypeGraph.Resolver.Table

/-!
# Queries about committed types

At every moment of a type system, whatever its loads have committed and whatever is on its way, every
query about what is committed is answered, and every name that is met on the way is found.

**Results.**
* `Query.Recalls.answers`: a query that the catalog can answer is answered by a registry.
* `Moment.Orderly.answersAbout`: at an orderly moment every query about a committed type is answered.
* `TypeSystem.queries_total`: so it is at every moment that is reached.
-/

namespace TypeGraph

/-- A query does not fail, and its answer has a property. -/
def Query.Answers {α : Type} (q : Query α) (r : TypeRegistry) (P : α → Prop) : Prop :=
  ∃ a after, q r = .ok (a, after) ∧ P a

/-- A query that the catalog can answer is answered by every sincere registry of it. -/
theorem Query.Recalls.answers
    {α : Type}
    {q : Query α}
    {r : TypeRegistry}
    {plain : Except Failure α}
    {P Q : α → Prop}
    (hq : q.Recalls r.catalog plain)
    (hr : r.Sincere)
    (hplain : ∃ a, plain = .ok a ∧ P a)
    (hPQ : ∀ a, P a → Q a) :
    q.Answers r Q := by
  obtain ⟨a, rfl, ha⟩ := hplain
  obtain ⟨after, hafter, -, -⟩ := hq r rfl hr
  exact ⟨a, after, hafter, hPQ a ha⟩

/-- Every query about a type is answered, and every name in an answer is found: the base and the
ancestors are classes, the interfaces are interfaces, the implementations are classes and the type
itself, inherited members are declared by committed types, and every part of a reference with a name
leads to the committed type of that name. -/
structure Registry.AnswersAbout (r : TypeRegistry) (t : TypeDef) : Prop where
  base : ∀ fqn, t.base = some fqn → r.catalog.Finds Catalog.OfClass [fqn]
  ancestors : (Query.ancestorsOf t).Answers r (r.catalog.Finds Catalog.OfClass)
  interfaces : ∀ inherited,
    (Query.interfacesOf t inherited).Answers r (r.catalog.Finds Catalog.OfInterface)
  extendsType : ∀ other ∈ r.catalog.types, (Query.extendsType t other).Answers r fun _ => True
  isDataType : (Query.isDataType t).Answers r fun _ => True
  implementations :
    (Query.implementations t).Answers r (r.catalog.Finds fun u => u.kind = .classKind ∨ u = t)
  methods : ∀ inherited, (Query.methodsOf t inherited).Answers r fun members =>
    ∀ owned ∈ members, owned.1 ∈ r.catalog.types ∧ owned.2 ∈ owned.1.methods
  properties : ∀ inherited, (Query.propertiesOf t inherited).Answers r fun members =>
    ∀ owned ∈ members, owned.1 ∈ r.catalog.types ∧ owned.2 ∈ owned.1.properties
  views : ∀ u part, t.Uses u → u.HasPart part →
    ∃ target, part.target r.catalog = .ok target ∧ part.fqn? = target.map TypeDef.fqn ∧
      ∀ d ∈ target, d ∈ r.catalog.types

/-- At an orderly moment every query about a committed type is answered. -/
theorem Moment.Orderly.answersAbout
    {s : Moment}
    (h : s.Orderly)
    {t : TypeDef}
    (ht : t ∈ s.registry.catalog.types) :
    s.registry.AnswersAbout t := by
  have hc := h.coherent
  have hnamed := hc.typeNamed_iff.2 ⟨ht, rfl⟩
  have hfinds : ∀ {P : TypeDef → Prop} (names : List String),
      (∀ name ∈ names, s.registry.catalog.Knows P name) → s.registry.catalog.Finds P names :=
    fun _ => hc.toIndexed.finds
  refine ⟨fun fqn hb => ?_, ?_, fun inherited => ?_, fun other _ => ?_, ?_, ?_, fun inherited => ?_,
    fun inherited => ?_, fun u part hu hpart => hc.exists_target ht hu hpart⟩
  · exact hfinds [fqn] fun name hname => List.mem_singleton.1 hname ▸ hc.knows_base ht hb
  · exact (Query.recalls_ancestorsOf hnamed).answers h.sincere (hc.exists_ancestors ht) hfinds
  · exact (Query.recalls_interfacesOf hnamed inherited).answers h.sincere
      (hc.exists_interfacesOf ht inherited) hfinds
  · obtain ⟨answer, hanswer⟩ := hc.exists_extendsType ht other
    exact (Query.recalls_extendsType hnamed other).answers h.sincere ⟨answer, hanswer, trivial⟩
      fun _ => id
  · obtain ⟨answer, hanswer⟩ := hc.exists_isDataType ht
    exact (Query.recalls_isDataType hnamed).answers h.sincere ⟨answer, hanswer, trivial⟩ fun _ => id
  · exact (Query.recalls_implementations hnamed hc.toIndexed).answers h.sincere
      (hc.exists_implementations ht) hfinds
  · exact (Query.recalls_methodsOf hnamed inherited).answers h.sincere
      (hc.exists_methodsOf ht inherited) fun _ => id
  · exact (Query.recalls_propertiesOf hnamed inherited).answers h.sincere
      (hc.exists_propertiesOf ht inherited) fun _ => id

/-- Sessions and whatever goes on between their actions reach moments; and at every moment that is
reached the dependencies of every committed assembly are found, and every query about a committed type
is answered. -/
theorem TypeSystem.queries_total :
    (∀ actions, (after actions).moment.Reached) ∧
    ∀ s : Moment, s.Reached →
      (∀ m ∈ s.registry.catalog.assemblies, ∃ found,
        s.registry.catalog.dependencies m = .ok found ∧
          ∀ n ∈ found, n ∈ s.registry.catalog.assemblies) ∧
      ∀ t ∈ s.registry.catalog.types, s.registry.AnswersAbout t :=
  ⟨reached_after, fun _ h => ⟨fun _ hm => h.orderly.coherent.exists_dependencies hm,
    fun _ ht => h.orderly.answersAbout ht⟩⟩

/-- A table with a library that declares an interface and a class with it, and an application whose
class has that class for its base and a property with both types in its reference. -/
def figures : AnswerTable :=
  [("app", .source (.value (.object [("name", .string "app"), ("version", .string "1"),
    ("dependencies", .array [.string "lib"]),
    ("types", .object [("app.Circle", .object [("kind", .string "class"),
      ("base", .string "lib.Figure"),
      ("properties", .array [.object [("name", .string "parts"),
        ("type", .string "(lib.Shape | app.Circle)[]")]])])])]))),
   ("lib", .source (.value (.object [("name", .string "lib"), ("version", .string "1"),
    ("types", .object [("lib.Shape", .object [("kind", .string "interface")]),
      ("lib.Figure", .object [("kind", .string "class"),
        ("interfaces", .array [.string "lib.Shape"])])])])))]

/-- The application is loaded with its library. -/
def drawn : TypeSystem :=
  .after [.load (AnswerTable.resolver figures) none "app"]

/-- The class of the application has an ancestor, and a usage of it leads to the interface. -/
theorem TypeSystem.queries_total_of_figures :
    ∃ t ∈ drawn.catalog.types, t.fqn = "app.Circle" ∧ t.base = some "lib.Figure" ∧
      drawn.registry.AnswersAbout t ∧
      ∃ u part, t.Uses u ∧ u.HasPart part ∧ part.fqn? = some "lib.Shape" ∧
        ∃ d ∈ drawn.catalog.types, part.target drawn.catalog = .ok (some d) ∧
          d.fqn = "lib.Shape" := by
  have hcircle : (drawn.catalog.type? "app.Circle").map (fun t =>
      (t.base, t.properties.map fun p => p.usage.ref)) =
      some (some "lib.Figure",
        [some (.array (.union [.named "lib.Shape", .named "app.Circle"]))]) := by
    cbv
  obtain ⟨t, hfind, hdeclared⟩ := Option.map_eq_some_iff.1 hcircle
  obtain ⟨hbase, hproperties⟩ := Prod.mk.inj hdeclared
  obtain ⟨p, hp, href⟩ := List.map_eq_singleton_iff.1 hproperties
  have ht : t ∈ drawn.catalog.types := List.mem_of_find?_eq_some hfind
  have hfqn : t.fqn = "app.Circle" := by simpa using List.find?_some hfind
  have huses : t.Uses p.usage := .property (by simp [hp])
  have harray : p.usage.arrayOf? =
      some (.ofRef (.union [.named "lib.Shape", .named "app.Circle"])) := by
    rw [Usage.arrayOf?, href]
  have hpart : p.usage.HasPart (.ofRef (.named "lib.Shape")) :=
    .union (.array .self harray) rfl (by simp)
  obtain ⟨hreached, htotal⟩ := queries_total
  have hdrawn : drawn.moment.Reached := hreached _
  have hanswers : drawn.registry.AnswersAbout t := (htotal _ hdrawn).2 t ht
  obtain ⟨target, htarget, hname, hmem⟩ := hanswers.views _ _ huses hpart
  obtain ⟨d, rfl, hd⟩ := Option.map_eq_some_iff.1 hname.symm
  exact ⟨t, ht, hfqn, hbase, hanswers, _, _, huses, hpart, rfl, d, hmem d rfl, htarget, hd⟩

end TypeGraph
