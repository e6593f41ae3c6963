import Mathlib
import TypeGraph.Proofs.System.Members

/-!
# Data types

Whether an interface is a data type is told by a walk over all that it extends, and the answer is kept for
ever; the methods it has with all that it inherits are listed by another walk, which is made anew each
time.  Both walks go through the lineage of the interface, and what an interface extends stays the same
once it is committed.  So the two agree, at the moment when they are asked and at every later one.

**Results.**
* `Moment.Orderly.exists_dataType`: both answers, from one lineage.
* `Moment.Orderly.isDataType_lasts`: what is told of an interface is told of it for ever.
* `TypeSystem.dataType_iff_no_methods`: data types at every moment that is reached.
-/

namespace TypeGraph

/-- An interface is a data type when none of the owners of its members declares a method. -/
theorem Catalog.isDataType_of_memberOwners
    {c : Catalog}
    {t : TypeDef}
    {owners : List TypeDef}
    (hkind : t.kind = .interfaceKind)
    (h : c.memberOwners t true = .ok owners) :
    c.isDataType t = .ok (owners.all fun owner => owner.methods.isEmpty) := by
  simp only [memberOwners, hkind] at h
  obtain ⟨names, hnames, howners⟩ := bind_eq_ok_iff.1 h
  simp only [isDataType, hkind]
  exact bind_eq_ok_iff.2 ⟨names, hnames, bind_eq_ok_iff.2 ⟨owners, howners, rfl⟩⟩

namespace Moment

section DataTypes

variable {s s' : Moment} {t u : TypeDef} (h : s.Orderly) (ht : t ∈ s.registry.catalog.types)
  (hkind : t.kind = .interfaceKind)
include h ht hkind

/-- Whether an interface is a data type and which methods it has is told of the same owners. -/
theorem Orderly.exists_dataType :
    ∃ owners, s.registry.catalog.Lineage t owners ∧
      s.answer (Query.isDataType t) = .ok (owners.all fun owner => owner.methods.isEmpty) ∧
      s.answer (Query.methodsOf t true) = .ok (collapseMethods owners) := by
  have hfind := h.typeNamed ht
  obtain ⟨owners, howners, hlineage⟩ := h.coherent.exists_lineage ht (by simp [hkind])
  refine ⟨owners, hlineage, ?_, ?_⟩
  · rw [h.answer_eq (Query.recalls_isDataType hfind)]
    exact Catalog.isDataType_of_memberOwners hkind howners
  · rw [h.answer_eq (Query.recalls_methodsOf hfind true)]
    exact bind_eq_ok_iff.2 ⟨owners, howners, rfl⟩

/-- An interface is a data type exactly when no interface that it extends declares a method. -/
theorem Orderly.isDataType_iff :
    s.answer (Query.isDataType t) = .ok true ↔
      ∀ u ∈ s.registry.catalog.types, u.kind = .interfaceKind → s.extendsType t u = .ok true →
        u.methods = [] := by
  obtain ⟨owners, hlineage, hanswer, -⟩ := h.exists_dataType ht hkind
  rw [hanswer, Except.ok.injEq, List.all_eq_true]
  simp only [List.isEmpty_iff]
  constructor
  · intro hnone u hu hinterface hextends
    have hpath := (h.extendsType_iff ht hu).1 hextends
    exact hnone u ((hlineage.mem_iff h.coherent ht hu).2 ⟨hinterface.trans hkind.symm, hpath⟩)
  · intro hnone u hmem
    have hu := hlineage.mem_types ht u hmem
    obtain ⟨hsame, hpath⟩ := (hlineage.mem_iff h.coherent ht hu).1 hmem
    exact hnone u hu (hsame.trans hkind) ((h.extendsType_iff ht hu).2 hpath)

/-- What a data type extends is a data type. -/
theorem Orderly.isDataType_of_extends
    (hdata : s.answer (Query.isDataType t) = .ok true)
    (hu : u ∈ s.registry.catalog.types)
    (hinterface : u.kind = .interfaceKind)
    (hextends : s.extendsType t u = .ok true) :
    s.answer (Query.isDataType u) = .ok true := by
  refine (h.isDataType_iff hu hinterface).2 fun v hv hvkind hfurther => ?_
  rw [h.extendsType_iff ht hu] at hextends
  rw [h.extendsType_iff hu hv] at hfurther
  exact (h.isDataType_iff ht hkind).1 hdata v hv hvkind
    ((h.extendsType_iff ht hv).2 (hextends.trans hfurther))

omit hkind in
/-- What is told of an interface at a moment is told of it at every later one. -/
theorem Orderly.isDataType_lasts
    {answer : Bool}
    (hanswer : s.answer (Query.isDataType t) = .ok answer)
    (hs : Relation.ReflTransGen Step s s') :
    t ∈ s'.registry.catalog.types ∧ s'.answer (Query.isDataType t) = .ok answer := by
  have ht' := (h.extends hs).types.subset ht
  have h' := h.steps hs
  rw [h.answer_eq (Query.recalls_isDataType (h.typeNamed ht))] at hanswer
  rw [h'.answer_eq (Query.recalls_isDataType (h'.typeNamed ht'))]
  exact ⟨ht', (h.keeps hs).isDataType hanswer⟩

end DataTypes
end Moment

namespace TypeSystem

/-- Sessions and whatever goes on between their actions reach moments, and each action of a session is a
sequence of steps.  At every moment that is reached, and for every interface that is committed then,
* it is told whether the interface is a data type, and its methods with all that it inherits are listed;
* it is a data type exactly when no methods are listed, and exactly when no interface that it extends,
  itself among them, declares a method;
* if it is a data type, so is every interface that it extends;
* at every later moment it is committed still and the same is told of it. -/
theorem dataType_iff_no_methods :
    (∀ actions, (after actions).moment.Reached ∧
      ∀ action, Relation.ReflTransGen Moment.Step (after actions).moment
        ((after actions).perform action).1.moment) ∧
    ∀ s : Moment, s.Reached → ∀ t ∈ s.registry.catalog.types, t.kind = .interfaceKind →
      ∃ answer methods, s.answer (Query.isDataType t) = .ok answer ∧
        s.answer (Query.methodsOf t true) = .ok methods ∧
        (answer = true ↔ methods = []) ∧
        (answer = true ↔ ∀ u ∈ s.registry.catalog.types, u.kind = .interfaceKind →
          s.extendsType t u = .ok true → u.methods = []) ∧
        (answer = true → ∀ u ∈ s.registry.catalog.types, u.kind = .interfaceKind →
          s.extendsType t u = .ok true → s.answer (Query.isDataType u) = .ok true) ∧
        ∀ s', Relation.ReflTransGen Moment.Step s s' →
          t ∈ s'.registry.catalog.types ∧ s'.answer (Query.isDataType t) = .ok answer := by
  refine ⟨fun actions => ⟨reached_after actions, (performAll_atRest actions).perform_steps⟩,
    fun s hs t ht hkind => ?_⟩
  have h := hs.orderly
  obtain ⟨owners, -, hanswer, hmethods⟩ := h.exists_dataType ht hkind
  have hiff := h.isDataType_iff ht hkind
  rw [hanswer, Except.ok.injEq] at hiff
  refine ⟨_, _, hanswer, hmethods, ?_, hiff, fun hdata u hu hinterface => ?_,
    fun s' hsteps => h.isDataType_lasts ht hanswer hsteps⟩
  · rw [collapseMethods, collapse_eq_nil_iff, List.all_eq_true]
    simp only [List.isEmpty_iff]
  · exact h.isDataType_of_extends ht hkind (hanswer.trans (congrArg Except.ok hdata)) hu hinterface

end TypeSystem

/-- A table with a library of one interface, which declares no method, and an application with three
interfaces: the first one extends that of the library, the second one the first one, and the third one
the second one, which alone declares a method. -/
def records : AnswerTable :=
  [("app", .source (.value (.object [("name", .string "app"), ("version", .string "1"),
    ("dependencies", .array [.string "lib"]),
    ("types", .object [
      ("app.Entry", .object [("kind", .string "interface"), ("interfaces", .array [.string "lib.Row"])]),
      ("app.Service", .object [("kind", .string "interface"),
        ("interfaces", .array [.string "app.Entry"]),
        ("methods", .array [.object [("name", .string "run")]])]),
      ("app.Worker", .object [("kind", .string "interface"),
        ("interfaces", .array [.string "app.Service"])])])]))),
   ("lib", .source (.value (.object [("name", .string "lib"), ("version", .string "1"),
    ("types", .object [("lib.Row", .object [("kind", .string "interface"),
      ("properties", .array [.object [("name", .string "id"), ("type", .string "string")]])])])])))]

/-- The library is loaded, and the application later. -/
def recorded : TypeSystem :=
  .after [.load (AnswerTable.resolver records) none "lib",
    .load (AnswerTable.resolver records) none "app"]

/-- What extends only interfaces without methods is a data type, and so is what it extends; what extends
one with a method is none, although it declares no method. -/
theorem TypeSystem.dataType_iff_no_methods_of_records :
    recorded.moment.Reached ∧
      ∃ entry ∈ recorded.catalog.types, ∃ row ∈ recorded.catalog.types,
        ∃ worker ∈ recorded.catalog.types,
          (entry.fqn, row.fqn, worker.fqn) = ("app.Entry", "lib.Row", "app.Worker") ∧
          recorded.moment.answer (Query.isDataType entry) = .ok true ∧
          recorded.moment.answer (Query.isDataType row) = .ok true ∧
          worker.methods = [] ∧ recorded.moment.answer (Query.isDataType worker) = .ok false := by
  have hfacts : (recorded.catalog.type? "app.Entry").bind (fun entry =>
      (recorded.catalog.type? "lib.Row").bind fun row =>
        (recorded.catalog.type? "app.Worker").map fun worker =>
          ((entry.kind, row.kind, recorded.moment.extendsType entry row,
            recorded.moment.answer (Query.methodsOf entry true)),
           (worker.kind, worker.methods.length,
            (recorded.moment.answer (Query.methodsOf worker true)).map List.length))) =
      some ((.interfaceKind, .interfaceKind, .ok true, .ok []), (.interfaceKind, 0, .ok 1)) := by
    cbv
  obtain ⟨entry, hentry, hrest⟩ := Option.bind_eq_some_iff.1 hfacts
  obtain ⟨row, hrow, hlast⟩ := Option.bind_eq_some_iff.1 hrest
  obtain ⟨worker, hworker, hfound⟩ := Option.map_eq_some_iff.1 hlast
  simp only [Prod.mk.injEq] at hfound
  obtain ⟨⟨hkind, hrowkind, hextends, hnone⟩, hworkerkind, hlength, hone⟩ := hfound
  have he : entry ∈ recorded.catalog.types := List.mem_of_find?_eq_some hentry
  have hr : row ∈ recorded.catalog.types := List.mem_of_find?_eq_some hrow
  have hw : worker ∈ recorded.catalog.types := List.mem_of_find?_eq_some hworker
  have hefqn : entry.fqn = "app.Entry" := by simpa using List.find?_some hentry
  have hrfqn : row.fqn = "lib.Row" := by simpa using List.find?_some hrow
  have hwfqn : worker.fqn = "app.Worker" := by simpa using List.find?_some hworker
  obtain ⟨hsessions, hmoments⟩ := dataType_iff_no_methods
  have hreached : recorded.moment.Reached := (hsessions _).1
  obtain ⟨answer, methods, hanswer, hmethods, hiff, -, hupwards, -⟩ :=
    hmoments _ hreached entry he hkind
  obtain rfl : methods = [] := Except.ok.inj (hmethods.symm.trans hnone)
  obtain rfl : answer = true := hiff.2 rfl
  obtain ⟨told, inherited, htold, hinherited, hworkeriff, -⟩ :=
    hmoments _ hreached worker hw hworkerkind
  rw [hinherited] at hone
  have hlisted : inherited.length = 1 := Except.ok.inj hone
  have hno : told = false := Bool.eq_false_iff.2 fun htrue => by
    rw [hworkeriff.1 htrue] at hlisted
    exact absurd hlisted (by decide)
  subst hno
  exact ⟨hreached, entry, he, row, hr, worker, hw, by rw [hefqn, hrfqn, hwfqn], hanswer,
    hupwards rfl row hr hrowkind hextends, List.eq_nil_of_length_eq_zero hlength, htold⟩

end TypeGraph
