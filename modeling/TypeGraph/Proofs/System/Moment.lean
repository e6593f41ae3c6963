import TypeGraph.Proofs.Inheritance.Recalled
import TypeGraph.Proofs.System.Session

/-!
# Moments of a type system

Loads that are on their way together have turns in any order, and between two turns more loads may
begin, roots may be promoted and questions may be asked.  A moment is a registry with the loads on
their way to it, and a step is one of these.

At every moment the catalog is coherent and the registry sincere.  A step leaves the registry as it
was, but for its root names and what it remembers, or publishes a batch.

**Results.**
* `Moment.Step.orderly`: a step keeps a moment orderly.
* `Moment.Orderly.query_eq_plain`: at an orderly moment questions are answered from the catalog.
* `Moment.Reached.orderly`: every moment that is reached from an empty type system is orderly.
-/

namespace TypeGraph

namespace Inquiry

/-- The answer to a question, computed from the catalog alone. -/
def plain (c : Catalog) : Inquiry → Except Failure Reply
  | .view compute => compute c
  | .ancestors key => do return .names (← c.ancestorsOf (← c.findType key))
  | .interfaces key inherited => do
      return .names (← c.interfacesOf (← c.findType key) inherited)
  | .extendsType key other => do
      return .holds (← c.extendsType (← c.findType key) (← c.findType other))
  | .dataType key => do return .holds (← c.isDataType (← c.findType key))
  | .implementations key => do return .names (← c.implementations (← c.findType key))
  | .methods key inherited => do return .methods (← c.methodsOf (← c.findType key) inherited)
  | .properties key inherited => do
      return .properties (← c.propertiesOf (← c.findType key) inherited)

/-- The type that a key names is found by its own full name. -/
theorem typeNamed_of_findType
    {c : Catalog}
    {key : Json}
    {t : TypeDef}
    (h : c.findType key = .ok t) :
    c.typeNamed t.fqn = .ok t := by
  rw [Catalog.typeNamed_eq_ok_iff]
  unfold Catalog.findType at h
  split at h
  · rename_i hsome
    cases h
    obtain ⟨fqn, -, hfqn⟩ := Option.bind_eq_some_iff.1 hsome
    have hname : t.fqn = fqn := by simpa using List.find?_some hfqn
    rw [hname]
    exact hfqn
  · cases h

/-- A question about the type that a key names. -/
theorem recalls_typeAt_bind
    {α : Type}
    {c : Catalog}
    (key : Json)
    {next : TypeDef → Query α}
    {plainNext : TypeDef → Except Failure α}
    (h : ∀ t, c.typeNamed t.fqn = .ok t → (next t).Recalls c (plainNext t)) :
    (typeAt key >>= next).Recalls c (c.findType key >>= plainNext) :=
  Query.recalls_bind (Query.recalls_fromCatalog _) fun t ht => h t (typeNamed_of_findType ht)

/-- Every question of a session is answered as the catalog answers it. -/
theorem recalls_query
    {c : Catalog}
    (hc : c.Indexed)
    (i : Inquiry) :
    i.query.Recalls c (i.plain c) := by
  cases i with
  | view compute => exact Query.recalls_fromCatalog compute
  | ancestors key =>
      refine recalls_typeAt_bind key fun t ht => ?_
      exact Query.recalls_bind (Query.recalls_ancestorsOf ht) fun _ _ => Query.recalls_pure _
  | interfaces key inherited =>
      refine recalls_typeAt_bind key fun t ht => ?_
      exact Query.recalls_bind (Query.recalls_interfacesOf ht inherited) fun _ _ =>
        Query.recalls_pure _
  | extendsType key other =>
      refine recalls_typeAt_bind key fun t ht => recalls_typeAt_bind other fun u _ => ?_
      exact Query.recalls_bind (Query.recalls_extendsType ht u) fun _ _ => Query.recalls_pure _
  | dataType key =>
      refine recalls_typeAt_bind key fun t ht => ?_
      exact Query.recalls_bind (Query.recalls_isDataType ht) fun _ _ => Query.recalls_pure _
  | implementations key =>
      refine recalls_typeAt_bind key fun t ht => ?_
      exact Query.recalls_bind (Query.recalls_implementations ht hc) fun _ _ =>
        Query.recalls_pure _
  | methods key inherited =>
      refine recalls_typeAt_bind key fun t ht => ?_
      exact Query.recalls_bind (Query.recalls_methodsOf ht inherited) fun _ _ => Query.recalls_pure _
  | properties key inherited =>
      refine recalls_typeAt_bind key fun t ht => ?_
      exact Query.recalls_bind (Query.recalls_propertiesOf ht inherited) fun _ _ =>
        Query.recalls_pure _

end Inquiry

/-- A load on its way: its resolver, its limit and its batch. -/
structure Pending where
  resolver : Resolver
  limit : Option Number
  batch : Batch

/-- What the turn of a load can make of a registry and its batch, with the answers of its resolver. -/
def Pending.Turns (p : Pending) (r r' : TypeRegistry) (state : BatchState) : Prop :=
  Run.Turn (p.resolver.settle p.limit) r p.batch r' state

/-- A registry and the loads that are on their way to it. -/
structure Moment where
  registry : TypeRegistry
  pending : List Pending

namespace Moment

/-- Nothing is committed and nothing is on its way. -/
def start : Moment :=
  ⟨.empty, []⟩

/-- A load begins, goes on to its next wave, or ends, or an assembly is made a root. -/
inductive Change : Moment → Moment → Prop
  | begins {r : TypeRegistry} {ps : List Pending} (resolver : Resolver) (limit : Option Number)
      (identifiers : List String) :
      Change ⟨r, ps⟩ ⟨r, ps ++ [⟨resolver, limit, .start r.catalog identifiers⟩]⟩
  | goesOn {r r' : TypeRegistry} {before after : List Pending} {p : Pending} {next : Batch} :
      p.Turns r r' (.active next) →
      Change ⟨r, before ++ p :: after⟩ ⟨r', before ++ { p with batch := next } :: after⟩
  | ends {r r' : TypeRegistry} {before after : List Pending} {p : Pending}
      {result : Except Failure (List Manifest)} :
      p.Turns r r' (.ended result) →
      Change ⟨r, before ++ p :: after⟩ ⟨r', before ++ after⟩
  | promotes {r r' : TypeRegistry} {ps : List Pending} {name : String} :
      r.promote name = .ok r' →
      Change ⟨r, ps⟩ ⟨r', ps⟩

/-- A change, or a question. -/
inductive Step : Moment → Moment → Prop
  | changes {s s' : Moment} :
      s.Change s' →
      Step s s'
  | asks {r r' : TypeRegistry} {ps : List Pending} {inquiry : Inquiry} {reply : Reply} :
      inquiry.query r = .ok (reply, r') →
      Step ⟨r, ps⟩ ⟨r', ps⟩

/-- A moment that some steps lead to, from an empty type system. -/
def Reached (s : Moment) : Prop :=
  Relation.ReflTransGen Step start s

/-- What holds at every moment. -/
structure Orderly (s : Moment) : Prop where
  coherent : s.registry.catalog.Coherent
  lawful : ∀ p ∈ s.pending, p.batch.Lawful (p.resolver.settle p.limit) s.registry.catalog
  sincere : s.registry.Sincere

section Orderly

variable {r r' : TypeRegistry} {s s' : Moment}

/-- What a change does to a registry: other names of roots, or a publication. -/
inductive Becomes (r r' : TypeRegistry) : Prop
  | stays (rootNames : List String) :
      r' = r.withRoots rootNames →
      Becomes r r'
  | published (batch : List Manifest) (roots : List String) :
      r.Published r' batch roots →
      Becomes r r'

theorem Becomes.same
    (r : TypeRegistry) :
    Becomes r r :=
  .stays r.catalog.rootNames rfl

/-- A load that goes on leaves the registry as it was and stays lawful. -/
theorem turn_active
    {p : Pending}
    {next : Batch}
    (hp : p.batch.Lawful (p.resolver.settle p.limit) r.catalog)
    (h : p.Turns r r' (.active next)) :
    r' = r ∧ next.Lawful (p.resolver.settle p.limit) r.catalog := by
  obtain ⟨rfl, hm, -⟩ := h.active
  exact ⟨rfl, hm.lawful hp⟩

/-- A load that ends leaves the registry as it was, or it is published. -/
theorem turn_ended
    {p : Pending}
    {result : Except Failure (List Manifest)}
    (hc : r.catalog.Coherent)
    (hp : p.batch.Lawful (p.resolver.settle p.limit) r.catalog)
    (h : p.Turns r r' (.ended result)) :
    Becomes r r' ∧ r'.catalog.Coherent ∧ r.catalog.Within r'.catalog := by
  rcases h.ended with ⟨failure, -, he⟩ | ⟨next, d, hm, -, hd, he⟩
  · cases he
    exact ⟨Becomes.same r, hc, fun _ hname => hname⟩
  · have hlawful := (hm.lawful hp).learned d hd
    rcases Run.settle_cases hlawful hc.toIndexed with
      ⟨failure, -, hs⟩ | ⟨batch, after, found, hlink, hpub, -, hs⟩
    · rw [hs] at he
      cases he
      exact ⟨Becomes.same r, hc, fun _ hname => hname⟩
    · rw [hs] at he
      cases he
      exact ⟨.published batch d.rootNames hpub, hpub.coherent hlawful hc hlink, hpub.within⟩

theorem promote_coherent
    {name : String}
    (hc : r.catalog.Coherent)
    (h : r.promote name = .ok r') :
    Becomes r r' ∧ r'.catalog.Coherent ∧ r.catalog.Within r'.catalog := by
  obtain ⟨hknown, rootNames, rfl, hmem⟩ := Registry.promote_withRoots h
  refine ⟨.stays rootNames rfl, hc.withRoots ?_, fun _ hname => hname⟩
  intro n hn
  rcases (hmem n).1 hn with hn | rfl
  · exact hc.roots n hn
  · exact hknown

/-- A change leaves the registry as it was, but for the names of its roots, or publishes a batch; the
catalog stays coherent, and the loads on their way stay lawful. -/
theorem Change.becomes
    (hs : s.Change s')
    (hc : s.registry.catalog.Coherent)
    (hl : ∀ p ∈ s.pending, p.batch.Lawful (p.resolver.settle p.limit) s.registry.catalog) :
    Becomes s.registry s'.registry ∧ s'.registry.catalog.Coherent ∧
      ∀ p ∈ s'.pending, p.batch.Lawful (p.resolver.settle p.limit) s'.registry.catalog := by
  cases hs with
  | @begins r ps resolver limit identifiers =>
      refine ⟨Becomes.same r, hc, fun p hp => ?_⟩
      rcases List.mem_append.1 hp with hp | hp
      · exact hl p hp
      · rw [List.mem_singleton.1 hp]
        exact Batch.Lawful.start _ _ _
  | @goesOn r r' before after p next ht =>
      obtain ⟨rfl, hnext⟩ := turn_active (hl p (by simp)) ht
      refine ⟨Becomes.same _, hc, fun q hq => ?_⟩
      simp only [List.mem_append, List.mem_cons] at hq
      rcases hq with hq | rfl | hq
      · exact hl q (by simp [hq])
      · exact hnext
      · exact hl q (by simp [hq])
  | @ends r r' before after p result ht =>
      obtain ⟨hbecomes, hcoherent, hwithin⟩ := turn_ended hc (hl p (by simp)) ht
      refine ⟨hbecomes, hcoherent, fun q hq => ?_⟩
      refine (hl q ?_).mono hwithin
      simp only [List.mem_append, List.mem_cons] at hq ⊢
      exact hq.imp_right Or.inr
  | @promotes r r' ps name hp =>
      obtain ⟨hbecomes, hcoherent, hwithin⟩ := promote_coherent hc hp
      exact ⟨hbecomes, hcoherent, fun q hq => (hl q hq).mono hwithin⟩

/-- A question that is asked at a moment is answered as the catalog answers it. -/
theorem Orderly.query_eq_plain
    (h : s.Orderly)
    (inquiry : Inquiry) :
    (inquiry.query s.registry).map Prod.fst = inquiry.plain s.registry.catalog :=
  (inquiry.recalls_query h.coherent.toIndexed).map_fst h.sincere

/-- What a question does to a moment. -/
theorem Orderly.asks
    {ps : List Pending}
    {inquiry : Inquiry}
    {reply : Reply}
    (h : Orderly ⟨r, ps⟩)
    (ha : inquiry.query r = .ok (reply, r')) :
    r.Learns r' ∧ r'.Sincere :=
  ((inquiry.recalls_query h.coherent.toIndexed).learns h.sincere ha).2

/-- A step keeps a moment orderly. -/
theorem Step.orderly
    (hs : s.Step s')
    (h : s.Orderly) :
    s'.Orderly := by
  cases hs with
  | changes hchange =>
      obtain ⟨hbecomes, hcoherent, hlawful⟩ := hchange.becomes h.coherent h.lawful
      refine ⟨hcoherent, hlawful, ?_⟩
      cases hbecomes with
      | stays rootNames he =>
          rw [he]
          exact h.sincere.withRoots rootNames
      | published batch roots hp => exact h.sincere.published hp
  | asks ha =>
      obtain ⟨hlearns, hsincere⟩ := h.asks ha
      have hcoherent := h.coherent
      have hlawful := h.lawful
      rw [← hlearns.catalog_eq] at hcoherent
      simp only [← hlearns.catalog_eq] at hlawful
      exact ⟨hcoherent, hlawful, hsincere⟩

theorem orderly_start :
    start.Orderly where
  coherent := Catalog.coherent_empty
  lawful := by simp [start]
  sincere := Registry.sincere_of_memo_empty rfl

/-- Steps keep a moment orderly. -/
theorem Orderly.steps
    (h : s.Orderly)
    (hs : Relation.ReflTransGen Step s s') :
    s'.Orderly := by
  induction hs with
  | refl => exact h
  | tail _ hstep ih => exact hstep.orderly ih

/-- Every moment that is reached is orderly. -/
theorem Reached.orderly
    (h : s.Reached) :
    s.Orderly :=
  orderly_start.steps h

end Orderly

end Moment
end TypeGraph
