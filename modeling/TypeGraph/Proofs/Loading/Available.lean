import TypeGraph.Proofs.Loading.Supplied

/-!
# What a load looks up is there

The end of a batch looks things up that it does not check for: the assemblies that its own lead to, the
types above a class or an interface, and its roots once it is committed.  Each was provided for before.
What the assemblies depend on was fetched, or is committed; the references of the whole batch were
checked, so that each base is a class and each listed interface an interface; and the roots were found,
or are committed.

**Results.**
* `Discovery.Supplied.exists_closure`: everything that an assembly of the batch leads to is at hand.
* `Linking.readable`: the checks of inheritance find every type, and it has what they read.
* `Discovery.Supplied.nothingMissing`: nothing that the end of a batch looks up is missing.
-/

namespace TypeGraph

namespace Linking

/-- The checks of inheritance find each type that they come to: on the way up from a class these are
classes, which have a base, and on the way up from an interface interfaces, which list others. -/
structure Readable (c : Catalog) (batch : List Manifest) : Prop where
  bases : ∀ t ∈ batch.flatMap Manifest.types, t.kind = .classKind → ∀ fqn,
    Relation.ReflTransGen (Links.Edge ((knownTypes c batch).map fun t => (t.fqn, t.base)))
        t.fqn fqn →
      ∃ u, (knownTypes c batch).find? (fun u => u.fqn == fqn) = some u ∧ u.kind = .classKind
  interfaces : ∀ t ∈ batch.flatMap Manifest.types, t.kind = .interfaceKind → ∀ fqn,
    Relation.ReflTransGen (Graph.Edge ((knownTypes c batch).map fun t => (t.fqn, t.interfaces)))
        t.fqn fqn →
      ∃ u, (knownTypes c batch).find? (fun u => u.fqn == fqn) = some u ∧ u.kind = .interfaceKind

section Readable

variable {c : Catalog} {batch : List Manifest}
  (hc : c.Coherent) (ha : c.Admits batch) (ho : ∀ m ∈ batch, m.Owns)
  (hr : ∀ m ∈ batch, checkReferences c batch m = .ok ())
include hc ha ho hr

/-- Once the references of a batch are checked, each mention leads to a type, whether it was committed
before or is in the batch. -/
theorem leads_of_mentions
    {m : Manifest}
    (hm : (c.append batch).Has m)
    {t : TypeDef}
    (ht : t ∈ m.types)
    {place : SitePlace}
    {fqn : String}
    (hf : t.Mentions place fqn) :
    Leads (c.append batch).Has m.name place fqn := by
  rcases List.mem_append.1 hm with hm | hm
  · exact (hc.sound_append ha).resolved m hm t ht place fqn hf
  · exact ((checkReferences_ok_iff hc.toIndexed ha ho).1 (hr m hm)).2 t ht place fqn hf

/-- The type that a mention leads to is found, and it fits the place. -/
theorem exists_of_mentions
    {m : Manifest}
    (hm : (c.append batch).Has m)
    {t : TypeDef}
    (ht : t ∈ m.types)
    {place : SitePlace}
    {fqn : String}
    (hf : t.Mentions place fqn) :
    ∃ u, (knownTypes c batch).find? (fun u => u.fqn == fqn) = some u ∧ Fits place u.kind := by
  obtain ⟨n, hn, -, u, hu, he, hfits⟩ := leads_of_mentions hc ha ho hr hm ht hf
  have hknown := (mem_knownTypes_iff hc.toIndexed).2 ⟨n, hn, hu⟩
  exact ⟨u, (find?_key_eq_some_iff (knownTypes_nodup hc.toIndexed ha)).2 ⟨hknown, he⟩, hfits⟩

omit ho hr in
/-- A type of the batch is found by its full name. -/
theorem find?_of_mem_batch
    {t : TypeDef}
    (ht : t ∈ batch.flatMap Manifest.types) :
    (knownTypes c batch).find? (fun u => u.fqn == t.fqn) = some t :=
  (find?_key_eq_some_iff (knownTypes_nodup hc.toIndexed ha)).2
    ⟨List.mem_append_left _ ht, rfl⟩

/-- Once the references of a batch are checked, its inheritance can be. -/
theorem readable :
    Readable c batch where
  bases t ht hkind fqn hpath := by
    rw [baseLinks_edge hc.toIndexed ha] at hpath
    -- the type at the end of the way is the first one, or the base of the one before
    rcases Relation.ReflTransGen.cases_tail hpath with rfl | ⟨below, -, m, hm, u, hu, -, hbase⟩
    · exact ⟨t, find?_of_mem_batch hc ha ht, hkind⟩
    · obtain ⟨v, hv, hfits⟩ := exists_of_mentions hc ha ho hr hm hu (TypeDef.Mentions.base hbase)
      exact ⟨v, hv, hfits.1 rfl⟩
  interfaces t ht hkind fqn hpath := by
    rw [interfaceGraph_edge hc.toIndexed ha] at hpath
    rcases Relation.ReflTransGen.cases_tail hpath with rfl | ⟨below, -, m, hm, u, hu, -, hlisted⟩
    · exact ⟨t, find?_of_mem_batch hc ha ht, hkind⟩
    · obtain ⟨v, hv, hfits⟩ :=
        exists_of_mentions hc ha ho hr hm hu (TypeDef.Mentions.interfaces hlisted)
      exact ⟨v, hv, hfits.2 rfl⟩

end Readable

/-- The graph of dependencies lists each assembly at hand. -/
theorem dependencyGraph_listed_of_mem
    {c : Catalog}
    {batch : List Manifest}
    {m : Manifest}
    (hm : m ∈ batch ++ c.assemblies) :
    (dependencyGraph c batch).Listed m.name := by
  unfold Graph.Listed dependencyGraph
  rw [Nodes.lookup_keyed]
  cases hfind : (batch ++ c.assemblies).find? fun n => n.name == m.name with
  | none =>
      have hnone := List.find?_eq_none.1 hfind m hm
      simp at hnone
  | some n => exact ⟨n.dependencyNames, rfl⟩

end Linking

namespace Discovery

/-- The batch that is checked: the assemblies found that are not committed, in dependency order. -/
def Ordered (c : Catalog) (d : Discovery) (batch : List Manifest) : Prop :=
  ∃ names, (graphOf (d.fresh c)).order ((d.fresh c).map Manifest.name) = .ok names ∧
    batch = arrange (d.fresh c) names

/-- Nothing is missing that the end of a batch looks up without having checked for it: the assemblies
that its own lead to, the types that the checks of inheritance come to, and its roots, while it is
committed and after. -/
structure NothingMissing (r : TypeRegistry) (d : Discovery) : Prop where
  visible : ∀ batch, d.Ordered r.catalog batch → ∀ m ∈ batch,
    ∃ visible, (Linking.dependencyGraph r.catalog batch).closure [m.name] = .ok visible
  readable : ∀ batch, d.Ordered r.catalog batch →
    Linking.checkUnique r.catalog [] (Linking.declarations batch) = .ok () →
    (∀ m ∈ batch, Linking.checkReferences r.catalog batch m = .ok ()) →
      Linking.Readable r.catalog batch
  committed : ∀ batch, d.link r.catalog = .ok batch →
    ∃ after found, r.commit batch d.rootNames = (after, .ok ()) ∧
      d.rootNames.mapM after.catalog.assemblyNamed = .ok found

section NothingMissing

variable {resolver : Resolver} {limit : Option Number} {c : Catalog} {d : Discovery}
  {wave : List String} {batch : List Manifest}

/-- Linking fails in the order, or in the checks of the batch in dependency order. -/
theorem link_error
    {failure : Failure}
    (h : d.link c = .error failure) :
    (∃ path, (graphOf (d.fresh c)).order ((d.fresh c).map Manifest.name) = .error path ∧
      failure = .dependencyCycle path) ∨
    ∃ batch, d.Ordered c batch ∧ Linking.check c batch = .error failure := by
  rw [link_eq] at h
  split at h
  · rename_i path horder
    cases h
    exact Or.inl ⟨path, horder, rfl⟩
  · rename_i names horder
    split at h
    · rename_i failure' hcheck
      cases h
      exact Or.inr ⟨_, ⟨names, horder, rfl⟩, hcheck⟩
    · cases h

/-- The batch that is checked has the assemblies that are not committed. -/
theorem Ordered.perm
    (h : d.Ordered c batch)
    (hn : (d.found.map Manifest.name).Nodup) :
    batch.Perm (d.fresh c) := by
  obtain ⟨names, horder, rfl⟩ := h
  exact (arrange_order (fresh_nodup hn) horder).1

/-- Where no wave is left, everything that an assembly of the batch leads to is at hand. -/
theorem Supplied.exists_closure
    (h : d.Supplied c [])
    (hc : c.Coherent)
    (hp : batch.Perm (d.fresh c))
    {m : Manifest}
    (hm : m ∈ batch) :
    ∃ visible, (Linking.dependencyGraph c batch).closure [m.name] = .ok visible := by
  have hsupplied : ∀ {name}, d.Supplies c name → (Linking.dependencyGraph c batch).Listed name := by
    intro name hs
    cases hhas : c.hasAssembly name with
    | true =>
        obtain ⟨n, hn, rfl⟩ := Catalog.hasAssembly_iff.1 hhas
        exact Linking.dependencyGraph_listed_of_mem (List.mem_append_right _ hn)
    | false =>
        obtain ⟨n, hn, rfl⟩ := hs.resolve_left (by simp [hhas])
        have hmem := hp.mem_iff.2 (mem_fresh_iff.2 ⟨hn, hhas⟩)
        exact Linking.dependencyGraph_listed_of_mem (List.mem_append_left _ hmem)
  refine Graph.closure_eq_ok fun start hstart name hpath => ?_
  obtain rfl := List.mem_singleton.1 hstart
  rcases Relation.ReflTransGen.cases_tail hpath with rfl | ⟨above, -, next, hnext, hname⟩
  · exact Linking.dependencyGraph_listed_of_mem (List.mem_append_left _ hm)
  · obtain ⟨n, hn, he⟩ := List.mem_map.1 (Nodes.mem_of_lookup hnext)
    cases he
    refine hsupplied ?_
    rcases List.mem_append.1 hn with hn | hn
    · exact h.dependencies (mem_fresh_iff.1 (hp.mem_iff.1 hn)).1 hname
    · exact Or.inl (Catalog.known_has_iff.1 (hc.depends_known ⟨n, hn, rfl, hname⟩))

/-- Where no wave is left, nothing that the end of the batch looks up is missing. -/
theorem Supplied.nothingMissing
    {r : TypeRegistry}
    (h : d.Supplied r.catalog [])
    (hc : r.catalog.Coherent)
    (hd : d.Lawful (resolver.settle limit) r.catalog wave) :
    d.NothingMissing r where
  visible batch hb m hm := h.exists_closure hc (hb.perm hd.found_nodup) hm
  readable batch hb hu hr := by
    have hp := hb.perm hd.found_nodup
    obtain ⟨hfqns, hnew⟩ := Linking.checkUnique_ok_iff.1 hu
    have hfresh : ∀ m ∈ batch, m ∈ d.found ∧ r.catalog.hasAssembly m.name = false :=
      fun m hm => mem_fresh_iff.1 (hp.mem_iff.1 hm)
    have hnames : (batch.map Manifest.name).Nodup :=
      (hp.map _).nodup_iff.2 (fresh_nodup hd.found_nodup)
    exact Linking.readable hc ⟨hnames, fun m hm => (hfresh m hm).2, hfqns, hnew⟩
      (fun m hm => hd.owns (hfresh m hm).1) hr
  committed batch hlink := by
    obtain ⟨after, found, hcommit, -, hfound⟩ := Run.commit_of_link hd hc.toIndexed hlink
    exact ⟨after, found, hcommit, hfound⟩

end NothingMissing

end Discovery
end TypeGraph
