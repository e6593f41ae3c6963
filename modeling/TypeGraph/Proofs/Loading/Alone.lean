import TypeGraph.Proofs.Loading.Progress
import TypeGraph.System

/-!
# Loads that run alone

A batch that is loaded alone goes on, wave by wave, while the registry stays as it is, and then stops
in one of two ways.  This is what a load of some roots does.  For each registry and request all outcomes
agree: they are the same, or the load fails at a wave, and each of them is the failure of an identifier of
that wave.

**Results.**
* `Alone.agree`: the outcomes of a load alone agree.
* `Alone.outcome`: it fails with the registry as it was, or it publishes what it has linked.
* `TypeSystem.loadRoots_alone`: the load of some roots is a load alone.
-/

namespace TypeGraph

/-- A batch stops with an outcome: it fails, or no wave is left and it comes to its end. -/
def Batch.Stops (resolver : Resolver) (limit : Option Number) (r : TypeRegistry) (b : Batch)
    (outcome : TypeRegistry × Except Failure (List Manifest)) : Prop :=
  (∃ failure, b.Fails (resolver.settle limit) r.catalog failure ∧
    outcome = (r, .error failure)) ∨
  ∃ d, b.wave = [] ∧ b.discovery = some d ∧ outcome = Run.settle r d

/-- A batch of some registry gets from its start to some state when nothing else is committed. -/
def OnWay (resolver : Resolver) (limit : Option Number) (c : Catalog) (identifiers : List String)
    (b : Batch) : Prop :=
  Relation.ReflTransGen (Batch.Moves (resolver.settle limit) c) (.start c identifiers) b

/-- The outcome of a request that is loaded alone. -/
def Alone (resolver : Resolver) (limit : Option Number) (r : TypeRegistry)
    (identifiers : List String) (outcome : TypeRegistry × Except Failure (List Manifest)) : Prop :=
  ∃ b, OnWay resolver limit r.catalog identifiers b ∧ b.Stops resolver limit r outcome

/-- Two results of a request agree: they are the same, or there is a wave of the request with failures in
it, and each result is one of them. -/
def Agree (resolver : Resolver) (limit : Option Number) (c : Catalog) (identifiers : List String)
    (result result' : Except Failure (List Manifest)) : Prop :=
  result = result' ∨ ∃ b failure failure', OnWay resolver limit c identifiers b ∧
    (∃ identifier ∈ b.wave, resolver.settle limit identifier = .error failure) ∧
    (∃ identifier ∈ b.wave, resolver.settle limit identifier = .error failure') ∧
    result = .error failure ∧ result' = .error failure'

section Alone

variable {resolver : Resolver} {limit : Option Number} {r : TypeRegistry}
  {identifiers : List String}

theorem OnWay.lawful
    {c : Catalog}
    {b : Batch}
    (h : OnWay resolver limit c identifiers b) :
    b.Lawful (resolver.settle limit) c := by
  induction h with
  | refl => exact Batch.Lawful.start _ _ _
  | tail _ hm ih => exact hm.lawful ih

/-- A batch that has its roots and no wave left stays as it is. -/
theorem Batch.moves_self
    {answer : String → Except Failure Manifest}
    {c : Catalog}
    {b : Batch}
    {d : Discovery}
    (hw : b.wave = [])
    (hd : b.discovery = some d) :
    b.Moves answer c b := by
  refine ⟨[], by rw [hw]; exact .nil, ?_⟩
  refine (Batch.advance_some (by simp [hw]) hd).2 ⟨by simp [hw], ?_⟩
  obtain ⟨identifiers, wave, discovery, touched⟩ := b
  simp only at hw hd
  simp [goOn, Discovery.newNames, hw, hd]

/-- A batch that stops goes on to nothing else. -/
theorem Batch.Stops.stays
    {b next : Batch}
    {outcome : TypeRegistry × Except Failure (List Manifest)}
    (h : b.Stops resolver limit r outcome)
    (hr : Relation.ReflTransGen (Batch.Moves (resolver.settle limit) r.catalog) b next) :
    next = b := by
  induction hr with
  | refl => rfl
  | tail _ hm ih =>
      subst ih
      rcases h with ⟨failure, hf, -⟩ | ⟨d, hw, hd, -⟩
      · exact absurd hm hf.not_moves
      · exact hm.unique (Batch.moves_self hw hd)

/-- A batch on its way stops in one way, or with any failure in its wave. -/
theorem Batch.Stops.agree
    {b : Batch}
    {after after' : TypeRegistry}
    {result result' : Except Failure (List Manifest)}
    (hb : OnWay resolver limit r.catalog identifiers b)
    (h : b.Stops resolver limit r (after, result))
    (h' : b.Stops resolver limit r (after', result')) :
    after = after' ∧ Agree resolver limit r.catalog identifiers result result' := by
  rcases h with ⟨failure, hf, he⟩ | ⟨d, hw, hd, he⟩ <;>
    rcases h' with ⟨failure', hf', he'⟩ | ⟨d', hw', hd', he'⟩
  · cases he
    cases he'
    refine ⟨rfl, ?_⟩
    rcases hf.eq_or_mem_wave hf' with rfl | ⟨hwave, hwave'⟩
    · exact Or.inl rfl
    · exact Or.inr ⟨b, failure, failure', hb, hwave, hwave', rfl, rfl⟩
  · exact absurd (Batch.moves_self hw' hd') hf.not_moves
  · exact absurd (Batch.moves_self hw hd) hf'.not_moves
  · rw [hd] at hd'
    cases hd'
    obtain ⟨rfl, rfl⟩ := Prod.mk.inj (he.trans he'.symm)
    exact ⟨rfl, Or.inl rfl⟩

/-- The outcomes of a load alone agree. -/
theorem Alone.agree
    {after after' : TypeRegistry}
    {result result' : Except Failure (List Manifest)}
    (h : Alone resolver limit r identifiers (after, result))
    (h' : Alone resolver limit r identifiers (after', result')) :
    after = after' ∧ Agree resolver limit r.catalog identifiers result result' := by
  obtain ⟨b, hb, hs⟩ := h
  obtain ⟨b', hb', hs'⟩ := h'
  have hunique : Relator.RightUnique (Batch.Moves (resolver.settle limit) r.catalog) :=
    fun _ _ _ hm hm' => hm.unique hm'
  rcases Relation.ReflTransGen.total_of_right_unique hunique hb hb' with hr | hr
  · rw [hs.stays hr] at hs'
    exact hs.agree hb hs'
  · rw [hs'.stays hr] at hs
    exact hs.agree hb' hs'

/-- A load alone fails with the registry as it was, or it publishes what it has linked and has its
roots. -/
theorem Alone.outcome
    {after : TypeRegistry}
    {result : Except Failure (List Manifest)}
    (hc : r.catalog.Coherent)
    (h : Alone resolver limit r identifiers (after, result)) :
    (∃ failure, result = .error failure ∧ after = r) ∨
    ∃ b d batch found, OnWay resolver limit r.catalog identifiers b ∧ b.wave = [] ∧
      b.discovery = some d ∧ d.link r.catalog = .ok batch ∧ r.Published after batch d.rootNames ∧
      d.rootNames.mapM after.catalog.assemblyNamed = .ok found ∧ result = .ok found := by
  obtain ⟨b, hb, ⟨failure, -, he⟩ | ⟨d, hw, hd, he⟩⟩ := h
  · cases he
    exact Or.inl ⟨failure, rfl, rfl⟩
  · rcases Run.settle_cases (hb.lawful.learned d hd) hc.toIndexed with
      ⟨failure, -, hs⟩ | ⟨batch, published, found, hlink, hpub, hfound, hs⟩
    · rw [hs] at he
      cases he
      exact Or.inl ⟨failure, rfl, rfl⟩
    · rw [hs] at he
      cases he
      exact Or.inr ⟨b, d, batch, found, hb, hw, hd, hlink, hpub, hfound, rfl⟩

end Alone

/-- The states of a run with a single batch: it is on its way alone with the registry as it was, or it
has ended with the outcome of a load alone. -/
def Single (resolver : Resolver) (limit : Option Number) (before : TypeRegistry)
    (identifiers : List String) (r : TypeRegistry) (batches : List BatchState) : Prop :=
  (∃ b, batches = [.active b] ∧ r = before ∧
    OnWay resolver limit before.catalog identifiers b) ∨
  ∃ result, batches = [.ended result] ∧ Alone resolver limit before identifiers (r, result)

/-- Every turn of a single batch keeps this. -/
theorem kept_single
    (resolver : Resolver)
    (limit : Option Number)
    (before : TypeRegistry)
    (identifiers : List String) :
    Run.Kept resolver limit
      (fun r _ batches => Single resolver limit before identifiers r batches) := by
  have hsingle : ∀ {r : TypeRegistry} {first : List BatchState} {b : Batch}
      {last : List BatchState},
      Single resolver limit before identifiers r (first ++ .active b :: last) →
        first = [] ∧ last = [] ∧ r = before ∧
          OnWay resolver limit before.catalog identifiers b := by
    rintro r first b last (⟨b', he, hr, hway⟩ | ⟨result, he, -⟩)
    · obtain ⟨rfl, he⟩ | ⟨rfl, he⟩ := List.append_eq_singleton_iff.1 he
      · cases he
        exact ⟨rfl, rfl, hr, hway⟩
      · simp at he
    · obtain ⟨rfl, he⟩ | ⟨rfl, he⟩ := List.append_eq_singleton_iff.1 he
      · simp at he
      · simp at he
  constructor
  · intro r ended first b last next _ _ hJ ht
    obtain ⟨rfl, rfl, rfl, hway⟩ := hsingle hJ
    obtain ⟨-, hm, -⟩ := ht.active
    exact Or.inl ⟨next, rfl, rfl, hway.tail hm⟩
  · intro r ended first b last after result _ _ hJ ht
    obtain ⟨rfl, rfl, rfl, hway⟩ := hsingle hJ
    refine Or.inr ⟨result, rfl, ?_⟩
    rcases ht.ended with ⟨failure, hf, he⟩ | ⟨next, d, hm, hw, hd, he⟩
    · exact ⟨b, hway, Or.inl ⟨failure, hf, he⟩⟩
    · exact ⟨next, hway.tail hm, Or.inr ⟨d, hw, hd, he⟩⟩

/-- The load of some roots is a load alone. -/
theorem TypeSystem.loadRoots_alone
    {s : TypeSystem}
    (hc : s.catalog.Coherent)
    (resolver : Resolver)
    (limit : Option Number)
    (identifiers : List String) :
    Alone resolver limit s.registry identifiers
      ((s.loadRoots resolver limit identifiers).1.registry,
        (s.loadRoots resolver limit identifiers).2.result) := by
  obtain ⟨-, hended, hJ⟩ := Loop.complete_induction hc
    (kept_single resolver limit s.registry identifiers) [identifiers]
    (Or.inl ⟨_, rfl, rfl, Relation.ReflTransGen.refl⟩)
  unfold TypeSystem.loadRoots TypeSystem.loadTogether
  rcases hJ with ⟨b, he, -⟩ | ⟨result, he, halone⟩
  · obtain ⟨result, hno⟩ := hended (.active b) (by simp [he])
    cases hno
  · simpa [Loader.results, he, Run.result] using halone

end TypeGraph
