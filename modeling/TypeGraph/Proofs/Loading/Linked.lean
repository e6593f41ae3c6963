import TypeGraph.Loading.Batch
import TypeGraph.Proofs.Graph.DepthFirst
import TypeGraph.Proofs.Loading.Checked

/-!
# Linked batches

Linking keeps the assemblies that a batch has found and that are not committed, puts them in
dependency order, and checks them.  It succeeds exactly when their dependencies have no cycle and the
checks pass, and then it has neither lost nor added an assembly.

**Results.**
* `Discovery.link_ok`: what is linked is what is new, in dependency order, and may be committed.
* `Discovery.link_ok_iff`: when linking succeeds.
-/

namespace TypeGraph
namespace Discovery

/-- The assemblies found that are not committed. -/
def fresh (c : Catalog) (d : Discovery) : List Manifest :=
  d.found.filter fun m => !c.hasAssembly m.name

/-- The dependencies of some assemblies as a graph. -/
def graphOf (batch : List Manifest) : Graph :=
  batch.map fun m => (m.name, m.dependencyNames)

/-- The assemblies of some names, in the order of the names. -/
def arrange (batch : List Manifest) (names : List String) : List Manifest :=
  names.filterMap fun name => batch.find? fun m => m.name == name

theorem mem_fresh_iff
    {c : Catalog}
    {d : Discovery}
    {m : Manifest} :
    m ∈ d.fresh c ↔ m ∈ d.found ∧ c.hasAssembly m.name = false := by
  simp [fresh]

theorem link_eq
    (c : Catalog)
    (d : Discovery) :
    d.link c =
      match (graphOf (d.fresh c)).order ((d.fresh c).map Manifest.name) with
      | .error path => .error (.dependencyCycle path)
      | .ok names =>
          match Linking.check c (arrange (d.fresh c) names) with
          | .error failure => .error failure
          | .ok _ => .ok (arrange (d.fresh c) names) := rfl

/-- Only the assemblies that are not committed count. -/
theorem link_congr
    {c : Catalog}
    {d d' : Discovery}
    (h : d.fresh c = d'.fresh c) :
    d.link c = d'.link c := by
  rw [link_eq, link_eq, h]

section Graph

variable {batch : List Manifest} (hn : (batch.map Manifest.name).Nodup)
include hn

theorem graphOf_lookup_iff
    {name : String}
    {next : List String} :
    (graphOf batch).lookup name = some next ↔
      ∃ m ∈ batch, m.name = name ∧ m.dependencyNames = next :=
  Nodes.lookup_keyed_eq_some_iff hn

theorem graphOf_listed_iff
    {name : String} :
    (graphOf batch).Listed name ↔ ∃ m ∈ batch, m.name = name := by
  simp only [Graph.Listed, graphOf_lookup_iff hn]
  constructor
  · rintro ⟨next, m, hm, he, -⟩
    exact ⟨m, hm, he⟩
  · rintro ⟨m, hm, he⟩
    exact ⟨_, m, hm, he, rfl⟩

theorem graphOf_edge :
    (graphOf batch).Edge = Depends (· ∈ batch) := by
  funext a b
  simp only [Graph.Edge, graphOf_lookup_iff hn, Depends, eq_iff_iff]
  constructor
  · rintro ⟨next, ⟨m, hm, he, rfl⟩, hb⟩
    exact ⟨m, hm, he, hb⟩
  · rintro ⟨m, hm, he, hb⟩
    exact ⟨_, ⟨m, hm, he, rfl⟩, hb⟩

theorem map_name_arrange
    {names : List String}
    (h : ∀ name ∈ names, ∃ m ∈ batch, m.name = name) :
    (arrange batch names).map Manifest.name = names := by
  induction names with
  | nil => rfl
  | cons name rest ih =>
      obtain ⟨m, hm, he⟩ := h name (by simp)
      have hfind : (batch.find? fun n => n.name == name) = some m :=
        (find?_key_eq_some_iff hn).2 ⟨hm, he⟩
      simp only [arrange, List.filterMap_cons, hfind, List.map_cons, he]
      exact congrArg _ (ih fun n hmem => h n (List.mem_cons_of_mem _ hmem))

theorem mem_arrange_iff
    {names : List String}
    {m : Manifest} :
    m ∈ arrange batch names ↔ m ∈ batch ∧ m.name ∈ names := by
  simp only [arrange, List.mem_filterMap, find?_key_eq_some_iff hn]
  constructor
  · rintro ⟨name, hname, hm, rfl⟩
    exact ⟨hm, hname⟩
  · rintro ⟨hm, hname⟩
    exact ⟨m.name, hname, hm, rfl⟩

/-- Assemblies in the order of their graph are the same assemblies, each after those it depends on. -/
theorem arrange_order
    {names : List String}
    (h : (graphOf batch).order (batch.map Manifest.name) = .ok names) :
    (arrange batch names).Perm batch ∧
      ∀ before m after, arrange batch names = before ++ m :: after →
        ∀ name ∈ m.dependencyNames, (∃ n ∈ batch, n.name = name) →
          ∃ n ∈ before, n.name = name := by
  obtain ⟨hnodup, hsorted, hlisted, hstarts⟩ := Graph.order_ok h
  have hnames : (arrange batch names).map Manifest.name = names :=
    map_name_arrange hn fun name hname => (graphOf_listed_iff hn).1 (hlisted name hname)
  have hmem : ∀ m, m ∈ arrange batch names ↔ m ∈ batch := by
    intro m
    rw [mem_arrange_iff hn]
    refine ⟨And.left, fun hm => ⟨hm, ?_⟩⟩
    exact hstarts m.name (List.mem_map_of_mem hm) ((graphOf_listed_iff hn).2 ⟨m, hm, rfl⟩)
  constructor
  · refine (List.perm_ext_iff_of_nodup ?_ (List.Nodup.of_map _ hn)).2 hmem
    exact List.Nodup.of_map Manifest.name (by rwa [hnames])
  · intro before m after he name hname hknown
    have hsplit : names = before.map Manifest.name ++ m.name :: after.map Manifest.name := by
      rw [← hnames, he, List.map_append, List.map_cons]
    have hm : m ∈ batch := (hmem m).1 (by simp [he])
    have hedge : (graphOf batch).Edge m.name name := by
      rw [graphOf_edge hn]
      exact ⟨m, hm, rfl, hname⟩
    have hbefore := hsorted _ _ _ hsplit name hedge ((graphOf_listed_iff hn).2 hknown)
    exact List.mem_map.1 hbefore

/-- There is an order exactly when no assembly depends on itself, directly or not. -/
theorem order_graphOf_iff :
    (∃ names, (graphOf batch).order (batch.map Manifest.name) = .ok names) ↔
      ∀ name, ¬ Relation.TransGen (Depends (· ∈ batch)) name name := by
  rw [Graph.order_eq_ok_iff]
  simp only [Graph.Reaches, graphOf_edge hn]
  constructor
  · intro h name hcycle
    obtain ⟨b, hfirst, -⟩ := Relation.TransGen.head'_iff.1 hcycle
    obtain ⟨m, hm, he, -⟩ := hfirst
    exact h name (he ▸ List.mem_map_of_mem hm) name Relation.ReflTransGen.refl hcycle
  · exact fun h _ _ name _ => h name

end Graph

theorem admits_of_perm
    {c : Catalog}
    {batch batch' : List Manifest}
    (hp : batch.Perm batch')
    (h : c.Admits batch) :
    c.Admits batch' where
  names_nodup := (hp.map _).nodup_iff.1 h.names_nodup
  names_new m hm := h.names_new m (hp.mem_iff.2 hm)
  fqns_nodup := ((hp.flatMap_right _).map _).nodup_iff.1 h.fqns_nodup
  fqns_new t ht := h.fqns_new t ((hp.flatMap_right _).mem_iff.2 ht)

theorem sound_of_perm
    {c : Catalog}
    {batch batch' : List Manifest}
    (hp : batch.Perm batch')
    (h : Sound (· ∈ batch) (c.append batch).Has) :
    Sound (· ∈ batch') (c.append batch').Has := by
  have hbatch : (· ∈ batch) = (· ∈ batch') := property_ext fun m => hp.mem_iff
  have hhas : (c.append batch).Has = (c.append batch').Has := by
    refine property_ext fun m => ?_
    simp only [Catalog.Has, Catalog.append, List.mem_append, hp.mem_iff]
  rwa [hbatch, hhas] at h

section Link

variable {c : Catalog} {d : Discovery}
  (hi : c.Indexed) (hn : (d.found.map Manifest.name).Nodup) (ho : ∀ m ∈ d.found, m.Owns)
include hi hn ho

omit hi ho in
theorem fresh_nodup :
    ((d.fresh c).map Manifest.name).Nodup :=
  hn.sublist (List.filter_sublist.map _)

/-- What is linked is what is new, in dependency order, and it may be committed. -/
theorem link_ok
    {batch : List Manifest}
    (h : d.link c = .ok batch) :
    batch.Perm (d.fresh c) ∧ DependencyFirst (fun name => c.hasAssembly name = true) batch ∧
      c.Admits batch ∧ Sound (· ∈ batch) (c.append batch).Has := by
  rw [link_eq] at h
  cases horder : (graphOf (d.fresh c)).order ((d.fresh c).map Manifest.name) with
  | error path => simp [horder] at h
  | ok names =>
      simp only [horder] at h
      cases hcheck : Linking.check c (arrange (d.fresh c) names) with
      | error failure => simp [hcheck] at h
      | ok u =>
          simp only [hcheck, Except.ok.injEq] at h
          obtain ⟨hperm, hfirst⟩ := arrange_order (fresh_nodup hn) horder
          rw [h] at hcheck hperm hfirst
          have hmem : ∀ m ∈ batch, m ∈ d.found ∧ c.hasAssembly m.name = false :=
            fun m hm => mem_fresh_iff.1 (hperm.mem_iff.1 hm)
          obtain ⟨ha, hs⟩ := (Linking.check_ok_iff hi
            ((hperm.map _).nodup_iff.2 (fresh_nodup hn)) (fun m hm => (hmem m hm).2)
            fun m hm => ho m (hmem m hm).1).1 hcheck
          refine ⟨hperm, ?_, ha, hs⟩
          -- the checks show that a dependency is committed or in the batch
          intro before m after he name hname
          have hm : m ∈ batch := by simp [he]
          have hdep : Depends (c.append batch).Has m.name name :=
            ⟨m, List.mem_append_right _ hm, rfl, hname⟩
          obtain ⟨n, hn', hname'⟩ := hs.closed m hm name (Relation.ReflTransGen.single hdep)
          rcases List.mem_append.1 hn' with hold | hnew
          · exact Or.inl (Catalog.hasAssembly_iff.2 ⟨n, hold, hname'⟩)
          · exact Or.inr (hfirst before m after he name hname
              ⟨n, hperm.mem_iff.1 hnew, hname'⟩)

/-- Linking succeeds exactly when the new assemblies depend on each other without a cycle, their types
are new, and they are sound. -/
theorem link_ok_iff :
    (∃ batch, d.link c = .ok batch) ↔
      (∀ name, ¬ Relation.TransGen (Depends (· ∈ d.fresh c)) name name) ∧
        c.Admits (d.fresh c) ∧ Sound (· ∈ d.fresh c) (c.append (d.fresh c)).Has := by
  rw [← order_graphOf_iff (fresh_nodup hn)]
  constructor
  · rintro ⟨batch, h⟩
    obtain ⟨hperm, -, ha, hs⟩ := link_ok hi hn ho h
    refine ⟨?_, admits_of_perm hperm ha, sound_of_perm hperm hs⟩
    rw [link_eq] at h
    split at h
    · simp at h
    · exact ⟨_, by assumption⟩
  · rintro ⟨⟨names, horder⟩, ha, hs⟩
    obtain ⟨hperm, -⟩ := arrange_order (fresh_nodup hn) horder
    have ha' := admits_of_perm hperm.symm ha
    have hcheck := (Linking.check_ok_iff hi ha'.names_nodup ha'.names_new
      fun m hm => ho m (mem_fresh_iff.1 (hperm.mem_iff.1 hm)).1).2
        ⟨ha', sound_of_perm hperm.symm hs⟩
    refine ⟨arrange (d.fresh c) names, ?_⟩
    rw [link_eq, horder]
    simp only [hcheck]

/-- Names that are committed or found are committed with what is linked. -/
theorem hasAssembly_of_link
    {batch : List Manifest}
    (h : d.link c = .ok batch)
    {name : String}
    (hname : c.hasAssembly name = true ∨ ∃ m ∈ d.found, m.name = name) :
    (c.append batch).hasAssembly name = true := by
  obtain ⟨hperm, -⟩ := link_ok hi hn ho h
  rw [Catalog.hasAssembly_append]
  cases hc : c.hasAssembly name with
  | true => exact Or.inl rfl
  | false =>
      rcases hname with hold | ⟨m, hm, rfl⟩
      · rw [hc] at hold
        cases hold
      · exact Or.inr ⟨m, hperm.mem_iff.2 (mem_fresh_iff.2 ⟨hm, hc⟩), rfl⟩

end Link

end Discovery
end TypeGraph
