import TypeGraph.Inheritance.Recall

/-!
# Steady queries

The structural queries change nothing of a registry but the answers that it remembers.

**Results.**
* `Query.steady_bind`, `Query.steady_remember`: asking on and remembering keep queries steady.
* `Query.steady_implementations` and the others: the structural queries are steady.
-/

namespace TypeGraph
namespace Query

/-- A query that leaves the catalog and the generation as they were. -/
def Steady {α : Type} (q : Query α) : Prop :=
  ∀ r answer after, q r = .ok (answer, after) →
    after.catalog = r.catalog ∧ after.generation = r.generation

section Steady

variable {α β : Type}

theorem steady_pure
    (a : α) :
    Steady (pure a : Query α) := by
  intro r answer after h
  cases h
  exact ⟨rfl, rfl⟩

theorem steady_fromCatalog
    (compute : Catalog → Except Failure α) :
    (fromCatalog compute).Steady := by
  intro r answer after h
  unfold fromCatalog at h
  split at h
  · simp at h
  · cases h
    exact ⟨rfl, rfl⟩

theorem steady_bind
    {q : Query α}
    {next : α → Query β}
    (hq : q.Steady)
    (hn : ∀ a, (next a).Steady) :
    (q >>= next).Steady := by
  intro r answer after h
  simp only [bind, StateT.bind, Except.bind] at h
  cases hr : q r with
  | error failure => simp [hr] at h
  | ok found =>
      obtain ⟨a, middle⟩ := found
      rw [hr] at h
      obtain ⟨hc, hg⟩ := hq r a middle hr
      obtain ⟨hc', hg'⟩ := hn a middle answer after h
      exact ⟨hc'.trans hc, hg'.trans hg⟩

/-- A remembered query changes the memo tables alone. -/
theorem steady_remember
    {lifetime : Lifetime}
    {question : Question}
    {compute : Query question.Answer}
    (hc : compute.Steady) :
    Steady (Registry.remember lifetime question compute) := by
  intro r answer after h
  unfold Registry.remember at h
  split at h
  · cases h
    exact ⟨rfl, rfl⟩
  · split at h
    · simp at h
    · rename_i found middle hm
      cases h
      exact hc r _ middle hm

theorem steady_filterM
    {p : α → Query Bool}
    (hp : ∀ a, (p a).Steady)
    (l : List α) :
    Steady (l.filterM p) := by
  have hloop : ∀ kept, Steady (l.filterAuxM p kept) := by
    induction l with
    | nil => exact fun kept => steady_pure kept
    | cons a rest ih => exact fun kept => steady_bind (hp a) fun keep => ih (cond keep (a :: kept) kept)
  exact steady_bind (hloop []) fun kept => steady_pure kept.reverse

end Steady

section Queries

theorem steady_typesNamed
    (names : List String) :
    (typesNamed names).Steady :=
  steady_fromCatalog _

theorem steady_ancestorsOf
    (t : TypeDef) :
    (ancestorsOf t).Steady :=
  steady_remember (steady_fromCatalog _)

theorem steady_classInterfaces
    (t : TypeDef) :
    (classInterfaces t).Steady := by
  refine steady_remember (steady_bind (steady_ancestorsOf t) fun names => ?_)
  exact steady_bind (steady_typesNamed names) fun _ => steady_fromCatalog _

theorem steady_ownClosure
    (t : TypeDef) :
    (ownClosure t).Steady :=
  steady_remember (steady_fromCatalog _)

theorem steady_interfacesOf
    (t : TypeDef)
    (inherited : Bool) :
    (interfacesOf t inherited).Steady := by
  unfold interfacesOf
  split
  · exact steady_classInterfaces t
  · exact steady_bind (steady_ownClosure t) fun _ => steady_pure _
  · exact steady_pure _

theorem steady_extendsType
    (t other : TypeDef) :
    (extendsType t other).Steady := by
  unfold extendsType
  split
  · split
    · exact steady_pure _
    · exact steady_bind (steady_ancestorsOf t) fun _ => steady_pure _
  · split
    · exact steady_pure _
    · exact steady_bind (steady_classInterfaces t) fun _ => steady_pure _
  · exact steady_bind (steady_ownClosure t) fun _ => steady_pure _
  · exact steady_pure _
  · exact steady_pure _

theorem steady_isDataType
    (t : TypeDef) :
    (isDataType t).Steady := by
  unfold isDataType
  split
  · refine steady_remember (steady_bind (steady_ownClosure t) fun names => ?_)
    exact steady_bind (steady_typesNamed names) fun _ => steady_pure _
  · exact steady_pure _

theorem steady_implementations
    (t : TypeDef) :
    (implementations t).Steady := by
  unfold implementations
  split
  · refine steady_remember (steady_bind (steady_fromCatalog _) fun types => ?_)
    refine steady_bind (steady_filterM (fun other => steady_extendsType other t) _) fun _ => ?_
    exact steady_pure _
  · exact steady_pure _

theorem steady_memberOwners
    (t : TypeDef)
    (inherited : Bool) :
    (memberOwners t inherited).Steady := by
  unfold memberOwners
  split
  · refine steady_bind (steady_ancestorsOf t) fun names => ?_
    exact steady_bind (steady_typesNamed names) fun _ => steady_pure _
  · exact steady_bind (steady_ownClosure t) fun names => steady_typesNamed names
  · exact steady_pure _

theorem steady_methodsOf
    (t : TypeDef)
    (inherited : Bool) :
    (methodsOf t inherited).Steady :=
  steady_bind (steady_memberOwners t inherited) fun _ => steady_pure _

theorem steady_propertiesOf
    (t : TypeDef)
    (inherited : Bool) :
    (propertiesOf t inherited).Steady :=
  steady_bind (steady_memberOwners t inherited) fun _ => steady_pure _

end Queries

end Query
end TypeGraph
