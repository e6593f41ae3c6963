import TypeGraph.Proofs.Inheritance.Lasting
import TypeGraph.Proofs.Registry.Coherent

/-!
# Remembered answers are plain answers

A registry is sincere when everything in its memo tables is what its catalog answers.  Asking a sincere
registry gives what the catalog answers, and leaves it sincere: it forgets nothing, and what it learns
is true.

**Results.**
* `Query.Recalls.map_fst`, `Query.Recalls.learns`: what a sincere registry answers, and what it learns.
* `Query.recalls_bind`, `Query.recalls_remember`: asking on and remembering.
* `Query.recalls_implementations` and the others: the structural queries answer as the catalog does.
* `Registry.Sincere.published`: a publication keeps a registry sincere.
-/

namespace TypeGraph

namespace Registry

/-- Everything that is remembered is what the catalog answers, and is kept as long as its question
says. -/
def Sincere (r : TypeRegistry) : Prop :=
  ∀ lifetime question answer, r.memo.find? lifetime question = some answer →
    question.lifetime = lifetime ∧ question.answer r.catalog = .ok answer

/-- A registry after some questions: nothing is committed and nothing is forgotten. -/
structure Learns (r after : TypeRegistry) : Prop where
  catalog_eq : after.catalog = r.catalog
  generation_eq : after.generation = r.generation
  keeps : ∀ lifetime question answer, r.memo.find? lifetime question = some answer →
    after.memo.find? lifetime question = some answer

section Sincere

variable {r after : TypeRegistry}

theorem Learns.refl
    (r : TypeRegistry) :
    r.Learns r :=
  ⟨rfl, rfl, fun _ _ _ h => h⟩

theorem Learns.trans
    {last : TypeRegistry}
    (h : r.Learns after)
    (h' : after.Learns last) :
    r.Learns last :=
  ⟨h'.catalog_eq.trans h.catalog_eq, h'.generation_eq.trans h.generation_eq,
    fun l q a ha => h'.keeps l q a (h.keeps l q a ha)⟩

/-- A registry that remembers nothing is sincere. -/
theorem sincere_of_memo_empty
    (h : r.memo = .empty) :
    r.Sincere := by
  intro lifetime question answer hfind
  rw [h] at hfind
  cases lifetime <;> cases hfind

/-- A true answer can be remembered. -/
theorem Sincere.store
    (h : r.Sincere)
    {question : Question}
    {answer : question.Answer}
    (ha : question.answer r.catalog = .ok answer) :
    Sincere { r with memo := r.memo.store question.lifetime question answer } := by
  intro lifetime' question' answer' hfind
  by_cases he : question.lifetime = lifetime' ∧ question = question'
  · obtain ⟨hl, rfl⟩ := he
    rw [← hl] at hfind ⊢
    simp only [Memo.find?_store_self, Option.some.injEq] at hfind
    subst hfind
    exact ⟨rfl, ha⟩
  · rw [not_and_or] at he
    rw [Memo.find?_store_of_ne _ _ he] at hfind
    exact h lifetime' question' answer' hfind

/-- An answer that was not remembered takes the place of none. -/
theorem Learns.store
    (h : r.Learns after)
    {question : Question}
    (answer : question.Answer)
    (hnew : r.memo.find? question.lifetime question = none) :
    r.Learns { after with memo := after.memo.store question.lifetime question answer } := by
  refine ⟨h.catalog_eq, h.generation_eq, fun lifetime' question' answer' hfind => ?_⟩
  by_cases he : question.lifetime = lifetime' ∧ question = question'
  · obtain ⟨hl, rfl⟩ := he
    rw [← hl, hnew] at hfind
    cases hfind
  · rw [not_and_or] at he
    rw [Memo.find?_store_of_ne _ _ he]
    exact h.keeps lifetime' question' answer' hfind

end Sincere

end Registry

namespace Query

/-- On every sincere registry of a catalog a query fails as `plain` does, or gives its answer; it
commits and forgets nothing, and what it learns is true. -/
def Recalls {α : Type} (q : Query α) (c : Catalog) (plain : Except Failure α) : Prop :=
  ∀ r : TypeRegistry, r.catalog = c → r.Sincere →
    match plain with
    | .error failure => q r = .error failure
    | .ok a => ∃ after, q r = .ok (a, after) ∧ r.Learns after ∧ after.Sincere

section Recalls

variable {α β : Type} {c : Catalog}

/-- A sincere registry answers as `plain` does. -/
theorem Recalls.map_fst
    {q : Query α}
    {plain : Except Failure α}
    {r : TypeRegistry}
    (h : q.Recalls r.catalog plain)
    (hr : r.Sincere) :
    (q r).map Prod.fst = plain := by
  have hresult := h r rfl hr
  cases plain with
  | error failure =>
      simp only at hresult
      rw [hresult]
      rfl
  | ok a =>
      obtain ⟨after, hafter, -, -⟩ := hresult
      rw [hafter]
      rfl

/-- What a sincere registry has answered is the answer of `plain`, and the registry stays sincere. -/
theorem Recalls.learns
    {q : Query α}
    {plain : Except Failure α}
    {r after : TypeRegistry}
    {a : α}
    (h : q.Recalls r.catalog plain)
    (hr : r.Sincere)
    (ha : q r = .ok (a, after)) :
    plain = .ok a ∧ r.Learns after ∧ after.Sincere := by
  have hresult := h r rfl hr
  cases plain with
  | error failure =>
      simp only at hresult
      rw [hresult] at ha
      cases ha
  | ok a' =>
      obtain ⟨after', hafter, hlearns, hsincere⟩ := hresult
      rw [hafter] at ha
      cases ha
      exact ⟨rfl, hlearns, hsincere⟩

theorem recalls_pure
    (a : α) :
    Recalls (pure a) c (.ok a) :=
  fun r _ hr => ⟨r, rfl, Registry.Learns.refl r, hr⟩

theorem recalls_fromCatalog
    (compute : Catalog → Except Failure α) :
    (fromCatalog compute).Recalls c (compute c) := by
  rintro r rfl hr
  unfold fromCatalog
  cases compute r.catalog with
  | error failure => rfl
  | ok a => exact ⟨r, rfl, Registry.Learns.refl r, hr⟩

/-- Asking on: the next query has to answer only what the first one may give. -/
theorem recalls_bind
    {q : Query α}
    {plain : Except Failure α}
    {next : α → Query β}
    {plainNext : α → Except Failure β}
    (hq : q.Recalls c plain)
    (hn : ∀ a, plain = .ok a → (next a).Recalls c (plainNext a)) :
    (q >>= next).Recalls c (plain >>= plainNext) := by
  rintro r rfl hr
  have hfirst := hq r rfl hr
  cases plain with
  | error failure =>
      simp only at hfirst
      simp [bind, StateT.bind, Except.bind, hfirst]
  | ok a =>
      obtain ⟨middle, hmiddle, hlearns, hsincere⟩ := hfirst
      have hsecond := hn a rfl middle hlearns.catalog_eq hsincere
      have hbind : (q >>= next) r = next a middle := by
        simp [bind, StateT.bind, Except.bind, hmiddle]
      rw [hbind]
      simp only [bind, Except.bind]
      cases hplain : plainNext a with
      | error failure => simpa [hplain] using hsecond
      | ok b =>
          rw [hplain] at hsecond
          obtain ⟨after, hafter, hlearns', hsincere'⟩ := hsecond
          exact ⟨after, hafter, hlearns.trans hlearns', hsincere'⟩

/-- A look at the catalog that succeeds asks on with what is found there. -/
theorem recalls_look
    {compute : Catalog → Except Failure α}
    {a : α}
    {next : α → Query β}
    {plain : Except Failure β}
    (ha : compute c = .ok a)
    (hn : (next a).Recalls c plain) :
    (fromCatalog compute >>= next).Recalls c plain := by
  rintro r rfl hr
  have hlook : (fromCatalog compute >>= next) r = next a r := by
    simp [bind, StateT.bind, Except.bind, fromCatalog, ha]
  rw [hlook]
  exact hn r rfl hr

/-- Remembering: what was remembered is true, and what is remembered now is. -/
theorem recalls_remember
    {question : Question}
    {compute : Query question.Answer}
    {plain : Except Failure question.Answer}
    (hanswer : question.answer c = plain)
    (h : compute.Recalls c plain) :
    Recalls (Registry.remember question.lifetime question compute) c plain := by
  subst hanswer
  rintro r rfl hr
  cases hfind : r.memo.find? question.lifetime question with
  | some known =>
      rw [(hr _ _ _ hfind).2]
      exact ⟨r, Registry.remember_known hfind, Registry.Learns.refl r, hr⟩
  | none =>
      have hcompute := h r rfl hr
      cases hplain : question.answer r.catalog with
      | error failure =>
          rw [hplain] at hcompute
          simp [Registry.remember, hfind, hcompute]
      | ok a =>
          rw [hplain] at hcompute
          obtain ⟨after, hafter, hlearns, hsincere⟩ := hcompute
          exact ⟨_, Registry.remember_new hfind hafter, hlearns.store a hfind,
            hsincere.store (by rw [hlearns.catalog_eq, hplain])⟩

theorem recalls_ite
    {p : Prop}
    [Decidable p]
    {q q' : Query α}
    {plain plain' : Except Failure α}
    (h : q.Recalls c plain)
    (h' : q'.Recalls c plain') :
    Recalls (if p then q else q') c (if p then plain else plain') := by
  by_cases hp : p
  · simpa [hp] using h
  · simpa [hp] using h'

theorem recalls_filterM
    {p : α → Query Bool}
    {plain : α → Except Failure Bool}
    {l : List α}
    (h : ∀ a ∈ l, (p a).Recalls c (plain a)) :
    Recalls (l.filterM p) c (l.filterM plain) := by
  have hloop : ∀ kept, Recalls (l.filterAuxM p kept) c (l.filterAuxM plain kept) := by
    induction l with
    | nil => exact fun kept => recalls_pure kept
    | cons a rest ih =>
        intro kept
        refine recalls_bind (h a (by simp)) fun keep _ => ?_
        exact ih (fun b hb => h b (List.mem_cons_of_mem _ hb)) (cond keep (a :: kept) kept)
  exact recalls_bind (hloop []) fun kept _ => recalls_pure kept.reverse

end Recalls

section Queries

variable {c : Catalog}

theorem recalls_typesNamed
    (names : List String) :
    (typesNamed names).Recalls c (names.mapM c.typeNamed) :=
  recalls_fromCatalog _

variable {t : TypeDef} (ht : c.typeNamed t.fqn = .ok t)
include ht

theorem recalls_ancestorsOf :
    (ancestorsOf t).Recalls c (c.ancestorsOf t) :=
  @recalls_remember c (.ancestors t.fqn) _ _ (bind_of_ok ht _) (recalls_fromCatalog _)

theorem recalls_classInterfaces :
    (classInterfaces t).Recalls c (c.classInterfaces t) := by
  refine @recalls_remember c (.classInterfaces t.fqn) _ _ (bind_of_ok ht _) ?_
  refine recalls_bind (recalls_ancestorsOf ht) fun names _ => ?_
  exact recalls_bind (recalls_typesNamed names) fun _ _ => recalls_fromCatalog _

theorem recalls_ownClosure :
    (ownClosure t).Recalls c (c.ownClosure t) :=
  @recalls_remember c (.ownClosure t.fqn) _ _ (bind_of_ok ht _) (recalls_fromCatalog _)

theorem recalls_interfacesOf
    (inherited : Bool) :
    (interfacesOf t inherited).Recalls c (c.interfacesOf t inherited) := by
  unfold interfacesOf Catalog.interfacesOf
  cases t.kind with
  | classKind =>
      cases inherited with
      | false => exact recalls_pure _
      | true => exact recalls_classInterfaces ht
  | interfaceKind =>
      cases inherited with
      | false => exact recalls_pure _
      | true => exact recalls_bind (recalls_ownClosure ht) fun _ _ => recalls_pure _
  | enumKind => exact recalls_pure _

theorem recalls_extendsType
    (other : TypeDef) :
    (extendsType t other).Recalls c (c.extendsType t other) := by
  unfold extendsType Catalog.extendsType
  cases t.kind with
  | classKind =>
      cases other.kind with
      | classKind =>
          refine recalls_ite (recalls_pure _) ?_
          exact recalls_bind (recalls_ancestorsOf ht) fun _ _ => recalls_pure _
      | interfaceKind =>
          refine recalls_ite (recalls_pure _) ?_
          exact recalls_bind (recalls_classInterfaces ht) fun _ _ => recalls_pure _
      | enumKind => exact recalls_pure _
  | interfaceKind =>
      cases other.kind with
      | interfaceKind => exact recalls_bind (recalls_ownClosure ht) fun _ _ => recalls_pure _
      | classKind => exact recalls_pure _
      | enumKind => exact recalls_pure _
  | enumKind => exact recalls_pure _

theorem recalls_isDataType :
    (isDataType t).Recalls c (c.isDataType t) := by
  cases hkind : t.kind with
  | interfaceKind =>
      rw [isDataType, hkind]
      refine @recalls_remember c (.dataType t.fqn) _ _ (bind_of_ok ht _) ?_
      rw [Catalog.isDataType, hkind]
      refine recalls_bind (recalls_ownClosure ht) fun names _ => ?_
      exact recalls_bind (recalls_typesNamed names) fun _ _ => recalls_pure _
  | classKind =>
      rw [isDataType, Catalog.isDataType, hkind]
      exact recalls_pure _
  | enumKind =>
      rw [isDataType, Catalog.isDataType, hkind]
      exact recalls_pure _

/-- The types that are asked whether they extend the interface are committed. -/
theorem recalls_implementations
    (hc : c.Indexed) :
    (implementations t).Recalls c (c.implementations t) := by
  cases hkind : t.kind with
  | interfaceKind =>
      rw [implementations, hkind]
      refine @recalls_remember c (.implementations t.fqn) _ _ (bind_of_ok ht _) ?_
      rw [Catalog.implementations, hkind]
      refine recalls_look rfl (recalls_bind (recalls_filterM ?_) fun _ _ => recalls_pure _)
      intro other hother
      exact recalls_extendsType (hc.typeNamed_iff.2 ⟨(List.mem_filter.1 hother).1, rfl⟩) t
  | classKind =>
      rw [implementations, Catalog.implementations, hkind]
      exact recalls_pure _
  | enumKind =>
      rw [implementations, Catalog.implementations, hkind]
      exact recalls_pure _

theorem recalls_memberOwners
    (inherited : Bool) :
    (memberOwners t inherited).Recalls c (c.memberOwners t inherited) := by
  unfold memberOwners Catalog.memberOwners
  cases t.kind with
  | classKind =>
      cases inherited with
      | false => exact recalls_pure _
      | true =>
          refine recalls_bind (recalls_ancestorsOf ht) fun names _ => ?_
          exact recalls_bind (recalls_typesNamed names) fun _ _ => recalls_pure _
  | interfaceKind =>
      cases inherited with
      | false => exact recalls_pure _
      | true => exact recalls_bind (recalls_ownClosure ht) fun names _ => recalls_typesNamed names
  | enumKind => exact recalls_pure _

theorem recalls_methodsOf
    (inherited : Bool) :
    (methodsOf t inherited).Recalls c (c.methodsOf t inherited) :=
  recalls_bind (recalls_memberOwners ht inherited) fun _ _ => recalls_pure _

theorem recalls_propertiesOf
    (inherited : Bool) :
    (propertiesOf t inherited).Recalls c (c.propertiesOf t inherited) :=
  recalls_bind (recalls_memberOwners ht inherited) fun _ _ => recalls_pure _

end Queries

end Query

namespace Registry

section Growth

variable {r after : TypeRegistry}

/-- A registry with other names of roots. -/
def withRoots (r : TypeRegistry) (rootNames : List String) : TypeRegistry :=
  { r with catalog := { r.catalog with rootNames := rootNames } }

/-- Making an assembly a root changes the names of the roots alone. -/
theorem promote_withRoots
    {name : String}
    (h : r.promote name = .ok after) :
    r.catalog.hasAssembly name = true ∧ ∃ rootNames, after = r.withRoots rootNames ∧
      ∀ n, n ∈ rootNames ↔ n ∈ r.catalog.rootNames ∨ n = name := by
  unfold Registry.promote at h
  cases hc : r.catalog.promote name with
  | error failure => simp [hc] at h
  | ok catalog =>
      simp only [hc, Except.ok.injEq] at h
      subst h
      obtain ⟨hknown, rootNames, rfl, hmem⟩ := Catalog.promote_ok hc
      exact ⟨hknown, rootNames, rfl, hmem⟩

/-- The names of the roots change no answer. -/
theorem Sincere.withRoots
    (h : r.Sincere)
    (rootNames : List String) :
    (r.withRoots rootNames).Sincere := by
  intro lifetime question answer hfind
  rw [Registry.withRoots, Question.answer_withRoots]
  exact h lifetime question answer hfind

/-- A publication forgets what it might change, so it keeps a registry sincere. -/
theorem Sincere.published
    (h : r.Sincere)
    {batch : List Manifest}
    {roots : List String}
    (hp : r.Published after batch roots) :
    after.Sincere := by
  obtain ⟨rootNames, rfl, -⟩ := hp
  intro lifetime question answer hfind
  cases lifetime with
  | current => cases hfind
  | lasting =>
      obtain ⟨hl, ha⟩ := h .lasting question answer hfind
      have hgrows : r.catalog.Grows (r.catalog.append batch) := ⟨_, rfl⟩
      refine ⟨hl, ?_⟩
      rw [Question.answer_withRoots]
      exact Question.answer_grows hgrows hl ha

end Growth

end Registry
end TypeGraph
