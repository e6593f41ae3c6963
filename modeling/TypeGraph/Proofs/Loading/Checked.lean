import TypeGraph.Loading.Link
import TypeGraph.Proofs.Graph.Climb
import TypeGraph.Proofs.Registry.Coherent
import TypeGraph.Proofs.Result

/-!
# What the checks of a batch establish

The checks of a batch pass exactly when no full name is declared twice and the batch is sound among
what is committed and itself.  Each check gets its own equivalence, and the last one puts them
together.

**Results.**
* `Linking.checkUnique_ok_iff`: full names are declared once.
* `Linking.checkReferences_ok_iff`: what an assembly depends on is there, and its mentions lead to
  types.
* `Linking.checkInheritance_ok_iff`: a type leads up to no cycle.
* `Linking.check_ok_iff`: the checks of a batch.
-/

namespace TypeGraph
namespace Linking

section Unique

variable {c : Catalog}

/-- A full name was not declared before exactly when neither the batch nor the catalog has it. -/
theorem declaredBefore_eq_none_iff
    {staged : List TypeDef}
    {fqn : String} :
    declaredBefore c staged fqn = none ↔
      (∀ t ∈ staged, t.fqn ≠ fqn) ∧ ∀ t ∈ c.types, t.fqn ≠ fqn := by
  unfold declaredBefore
  cases h : staged.find? fun t => t.fqn == fqn with
  | some t =>
      have hfqn : t.fqn = fqn := by simpa using List.find?_some h
      have ht := List.mem_of_find?_eq_some h
      simp only [reduceCtorEq, false_iff, not_and_or]
      exact Or.inl fun hall => hall t ht hfqn
  | none =>
      have hstaged : ∀ t ∈ staged, t.fqn ≠ fqn := by simpa using h
      rw [Option.map_eq_none_iff, Catalog.type?_eq_none_iff]
      exact ⟨fun hc => ⟨hstaged, hc⟩, And.right⟩

/-- Full names are declared once, given those that were declared before. -/
theorem checkUnique_staged_iff
    {staged : List TypeDef}
    {declared : List (String × TypeDef)} :
    checkUnique c staged declared = .ok () ↔
      (declared.map fun d => d.2.fqn).Nodup ∧
        ∀ d ∈ declared, (∀ t ∈ staged, t.fqn ≠ d.2.fqn) ∧ ∀ t ∈ c.types, t.fqn ≠ d.2.fqn := by
  induction declared generalizing staged with
  | nil => simp [checkUnique]
  | cons first rest ih =>
      obtain ⟨assembly, t⟩ := first
      cases h : declaredBefore c staged t.fqn with
      | some other =>
          have hknown : ¬ ((∀ u ∈ staged, u.fqn ≠ t.fqn) ∧ ∀ u ∈ c.types, u.fqn ≠ t.fqn) := by
            rw [← declaredBefore_eq_none_iff, h]
            simp
          simp only [checkUnique, h, reduceCtorEq, List.forall_mem_cons, false_iff]
          exact fun hall => hknown hall.2.1
      | none =>
          have hnew := declaredBefore_eq_none_iff.1 h
          simp only [checkUnique, h, ih, List.map_cons, List.nodup_cons, List.mem_map,
            List.forall_mem_cons, not_exists, not_and]
          constructor
          · rintro ⟨hrest, hall⟩
            refine ⟨⟨fun d hd he => ?_, hrest⟩, hnew, fun d hd => ?_⟩
            · exact (hall d hd).1.1 he.symm
            · exact ⟨(hall d hd).1.2, (hall d hd).2⟩
          · rintro ⟨⟨hfirst, hrest⟩, -, hall⟩
            refine ⟨hrest, fun d hd => ⟨⟨fun he => ?_, (hall d hd).1⟩, (hall d hd).2⟩⟩
            exact hfirst d hd he.symm

theorem map_snd_declarations
    (batch : List Manifest) :
    (declarations batch).map Prod.snd = batch.flatMap Manifest.types := by
  simp [declarations, List.map_flatMap, Function.comp_def]

/-- Each full name of a batch is new to the catalog and declared once. -/
theorem checkUnique_ok_iff
    {batch : List Manifest} :
    checkUnique c [] (declarations batch) = .ok () ↔
      ((batch.flatMap Manifest.types).map TypeDef.fqn).Nodup ∧
        ∀ t ∈ batch.flatMap Manifest.types, ∀ u ∈ c.types, u.fqn ≠ t.fqn := by
  rw [checkUnique_staged_iff, ← map_snd_declarations, List.map_map]
  simp only [List.forall_mem_map, List.not_mem_nil, false_implies, implies_true, true_and,
    Function.comp_def]

end Unique

theorem checkKind_ok_iff
    {assembly : String}
    {t target : TypeDef}
    {site : Site} :
    checkKind assembly t site target = .ok () ↔ Fits site.place target.kind := by
  unfold checkKind Fits
  cases site.place <;> simp

section Tables

variable {c : Catalog} {batch : List Manifest}

theorem mem_knownTypes_iff
    (hi : c.Indexed)
    {t : TypeDef} :
    t ∈ knownTypes c batch ↔ ∃ m, (c.append batch).Has m ∧ t ∈ m.types := by
  simp only [knownTypes, List.mem_append, List.mem_flatMap, hi.mem_types_iff, Catalog.append,
    Catalog.Has]
  constructor
  · rintro (⟨m, hm, ht⟩ | ⟨m, hm, ht⟩)
    · exact ⟨m, Or.inr hm, ht⟩
    · exact ⟨m, Or.inl hm, ht⟩
  · rintro ⟨m, hm | hm, ht⟩
    · exact Or.inr ⟨m, hm, ht⟩
    · exact Or.inl ⟨m, hm, ht⟩

theorem knownTypes_nodup
    (hi : c.Indexed)
    (ha : c.Admits batch) :
    ((knownTypes c batch).map TypeDef.fqn).Nodup := by
  rw [knownTypes, List.map_append]
  refine List.nodup_append.2 ⟨ha.fqns_nodup, hi.fqns_nodup, ?_⟩
  intro a hb b hc
  obtain ⟨t, ht, rfl⟩ := List.mem_map.1 hb
  obtain ⟨u, hu, rfl⟩ := List.mem_map.1 hc
  exact fun he => ha.fqns_new t ht u hu he.symm

/-- The graph of dependencies lists the assemblies at hand. -/
theorem dependencyGraph_lookup_iff
    (hi : c.Indexed)
    (ha : c.Admits batch)
    {name : String}
    {next : List String} :
    (dependencyGraph c batch).lookup name = some next ↔
      ∃ m, (c.append batch).Has m ∧ m.name = name ∧ m.dependencyNames = next := by
  have hn : ((batch ++ c.assemblies).map Manifest.name).Nodup := by
    rw [List.map_append]
    refine List.nodup_append.2 ⟨ha.names_nodup, hi.names_nodup, ?_⟩
    intro a hb b hc
    obtain ⟨m, hm, rfl⟩ := List.mem_map.1 hb
    obtain ⟨n, hn, rfl⟩ := List.mem_map.1 hc
    exact fun he => Catalog.hasAssembly_eq_false_iff.1 (ha.names_new m hm) n hn he.symm
  rw [dependencyGraph, Nodes.lookup_keyed_eq_some_iff hn]
  simp only [Catalog.Has, Catalog.append, List.mem_append, or_comm]

theorem dependencyGraph_listed_iff
    (hi : c.Indexed)
    (ha : c.Admits batch)
    {name : String} :
    (dependencyGraph c batch).Listed name ↔ Known (c.append batch).Has name := by
  simp only [Graph.Listed, dependencyGraph_lookup_iff hi ha]
  constructor
  · rintro ⟨next, m, hm, he, -⟩
    exact ⟨m, hm, he⟩
  · rintro ⟨m, hm, he⟩
    exact ⟨_, m, hm, he, rfl⟩

theorem dependencyGraph_edge
    (hi : c.Indexed)
    (ha : c.Admits batch) :
    (dependencyGraph c batch).Edge = Depends (c.append batch).Has := by
  funext a b
  simp only [Graph.Edge, dependencyGraph_lookup_iff hi ha, Depends, eq_iff_iff]
  constructor
  · rintro ⟨next, ⟨m, hm, he, rfl⟩, hb⟩
    exact ⟨m, hm, he, hb⟩
  · rintro ⟨m, hm, he, hb⟩
    exact ⟨_, ⟨m, hm, he, rfl⟩, hb⟩

theorem baseLinks_edge
    (hi : c.Indexed)
    (ha : c.Admits batch) :
    Links.Edge ((knownTypes c batch).map fun t => (t.fqn, t.base)) =
      BaseLink (c.append batch).Has :=
  baseLink_of_table (knownTypes_nodup hi ha) fun _ => mem_knownTypes_iff hi

theorem interfaceGraph_edge
    (hi : c.Indexed)
    (ha : c.Admits batch) :
    Graph.Edge ((knownTypes c batch).map fun t => (t.fqn, t.interfaces)) =
      InterfaceLink (c.append batch).Has :=
  interfaceLink_of_table (knownTypes_nodup hi ha) fun _ => mem_knownTypes_iff hi

end Tables

section Checks

variable {c : Catalog} {batch : List Manifest}
  (hi : c.Indexed) (ha : c.Admits batch) (ho : ∀ m ∈ batch, m.Owns)
include hi ha ho

theorem checkSite_ok_iff
    {visible : List String}
    {assembly : String}
    (hv : ∀ name, name ∈ visible ↔ Relation.ReflTransGen (Depends (c.append batch).Has) assembly name)
    {t : TypeDef}
    {site : Site} :
    checkSite (knownTypes c batch) visible assembly t site = .ok () ↔
      Leads (c.append batch).Has assembly site.place site.target := by
  have howns := (hi.append ha ho).owns
  have hfind : ∀ target, (knownTypes c batch).find? (fun u => u.fqn == site.target) = some target ↔
      target ∈ knownTypes c batch ∧ target.fqn = site.target :=
    fun _ => find?_key_eq_some_iff (knownTypes_nodup hi ha)
  unfold checkSite
  constructor
  · intro h
    split at h
    · simp at h
    · rename_i target hsome
      obtain ⟨hmem, hfqn⟩ := (hfind target).1 hsome
      obtain ⟨m, hm, ht⟩ := (mem_knownTypes_iff hi).1 hmem
      split at h
      · rename_i hvisible
        have hreach := (hv target.assembly).1 (by simpa using hvisible)
        rw [howns m hm target ht] at hreach
        exact ⟨m, hm, hreach, target, ht, hfqn, checkKind_ok_iff.1 h⟩
      · simp at h
  · rintro ⟨m, hm, hreach, target, ht, hfqn, hfits⟩
    rw [(hfind target).2 ⟨(mem_knownTypes_iff hi).2 ⟨m, hm, ht⟩, hfqn⟩]
    have hvisible : visible.contains target.assembly = true := by
      rw [howns m hm target ht]
      simpa using (hv m.name).2 hreach
    simp only [hvisible, if_true]
    exact checkKind_ok_iff.2 hfits

/-- The references of an assembly pass exactly when what it depends on is at hand and each mention
in its types leads to a type. -/
theorem checkReferences_ok_iff
    {m : Manifest} :
    checkReferences c batch m = .ok () ↔
      (∀ name, Relation.ReflTransGen (Depends (c.append batch).Has) m.name name →
        Known (c.append batch).Has name) ∧
      ∀ t ∈ m.types, ∀ place fqn, t.Mentions place fqn →
        Leads (c.append batch).Has m.name place fqn := by
  have hsites : ∀ t : TypeDef, (∀ site ∈ t.sites,
      Leads (c.append batch).Has m.name site.place site.target) ↔
      ∀ place fqn, t.Mentions place fqn → Leads (c.append batch).Has m.name place fqn := by
    intro t
    constructor
    · exact fun h place fqn hf => h ⟨fqn, place⟩ (TypeDef.mem_sites_iff.2 hf)
    · exact fun h site hs => h _ _ (TypeDef.mem_sites_iff.1 hs)
  have hknown : ∀ name, (dependencyGraph c batch).Reaches m.name name ↔
      Relation.ReflTransGen (Depends (c.append batch).Has) m.name name := by
    intro name
    rw [Graph.Reaches, dependencyGraph_edge hi ha]
  unfold checkReferences
  cases hc : (dependencyGraph c batch).closure [m.name] with
  | error name =>
      simp only [reduceCtorEq, false_iff, not_and]
      intro hall
      have hok : ∃ visible, (dependencyGraph c batch).closure [m.name] = .ok visible := by
        refine Graph.closure_eq_ok ?_
        rintro start hs node hr
        rw [List.mem_singleton.1 hs] at hr
        exact (dependencyGraph_listed_iff hi ha).2 (hall node ((hknown node).1 hr))
      rw [hc] at hok
      simp at hok
  | ok visible =>
      have hv : ∀ name, name ∈ visible ↔
          Relation.ReflTransGen (Depends (c.append batch).Has) m.name name := by
        intro name
        rw [Graph.mem_closure_iff hc, ← hknown]
        simp
      simp only [checkAll_eq_ok_iff, checkSite_ok_iff hi ha ho hv, hsites]
      constructor
      · intro h
        refine ⟨fun name hr => ?_, h⟩
        exact (dependencyGraph_listed_iff hi ha).1
          (Graph.listed_of_closure hc (by simp) ((hknown name).2 hr))
      · exact And.right

omit ho in
/-- A type passes exactly when it leads up to no cycle of bases or of interfaces. -/
theorem checkInheritance_ok_iff
    {t : TypeDef} :
    checkInheritance (knownTypes c batch) t = .ok () ↔
      (t.kind = .classKind → ∀ fqn, Relation.ReflTransGen (BaseLink (c.append batch).Has) t.fqn fqn →
        ¬ Relation.TransGen (BaseLink (c.append batch).Has) fqn fqn) ∧
      (t.kind = .interfaceKind → ∀ fqn,
        Relation.ReflTransGen (InterfaceLink (c.append batch).Has) t.fqn fqn →
          ¬ Relation.TransGen (InterfaceLink (c.append batch).Has) fqn fqn) := by
  unfold checkInheritance
  cases t.kind with
  | classKind =>
      have hrepeat := Links.chain_repeats_iff
        ((knownTypes c batch).map fun t => (t.fqn, t.base)) t.fqn
      rw [baseLinks_edge hi ha] at hrepeat
      simp only [reduceCtorEq, false_implies, and_true, true_implies]
      split
      · rename_i names name hchain
        obtain ⟨fqn, hr, hcycle⟩ := hrepeat.1 ⟨names, name, hchain⟩
        simp only [reduceCtorEq, false_iff]
        exact fun hall => hall fqn hr hcycle
      · rename_i hchain
        simp only [true_iff]
        intro fqn hr hcycle
        obtain ⟨names, name, he⟩ := hrepeat.2 ⟨fqn, hr, hcycle⟩
        exact hchain names name he
  | interfaceKind =>
      have hiff := Graph.order_eq_ok_iff
        ((knownTypes c batch).map fun t => (t.fqn, t.interfaces)) [t.fqn]
      simp only [Graph.Reaches, interfaceGraph_edge hi ha, List.mem_singleton, forall_eq] at hiff
      simp only [reduceCtorEq, false_implies, true_and, true_implies, ← hiff]
      split <;> simp_all
  | enumKind => simp

/-- A batch that is new to the catalog passes the checks on references and inheritance exactly when
it is sound. -/
theorem sound_iff :
    (∀ m ∈ batch, checkReferences c batch m = .ok ()) ∧
        (∀ t ∈ batch.flatMap Manifest.types, checkInheritance (knownTypes c batch) t = .ok ()) ↔
      Sound (· ∈ batch) (c.append batch).Has := by
  simp only [checkReferences_ok_iff hi ha ho, checkInheritance_ok_iff hi ha]
  constructor
  · rintro ⟨hrefs, hinherit⟩
    have hin : ∀ m ∈ batch, ∀ t ∈ m.types, t ∈ batch.flatMap Manifest.types :=
      fun m hm t ht => List.mem_flatMap.2 ⟨m, hm, ht⟩
    exact {
      closed := fun m hm => (hrefs m hm).1
      resolved := fun m hm => (hrefs m hm).2
      bases := fun m hm t ht => (hinherit t (hin m hm t ht)).1
      interfaces := fun m hm t ht => (hinherit t (hin m hm t ht)).2 }
  · intro h
    refine ⟨fun m hm => ⟨h.closed m hm, h.resolved m hm⟩, fun t ht => ?_⟩
    obtain ⟨m, hm, ht⟩ := List.mem_flatMap.1 ht
    exact ⟨h.bases m hm t ht, h.interfaces m hm t ht⟩

end Checks

/-- A batch of new assemblies passes the checks exactly when its types are new too and it is sound. -/
theorem check_ok_iff
    {c : Catalog}
    {batch : List Manifest}
    (hi : c.Indexed)
    (hn : (batch.map Manifest.name).Nodup)
    (hnew : ∀ m ∈ batch, c.hasAssembly m.name = false)
    (ho : ∀ m ∈ batch, m.Owns) :
    check c batch = .ok () ↔ c.Admits batch ∧ Sound (· ∈ batch) (c.append batch).Has := by
  have hunit : ∀ {x : Except Failure Unit} {f : Unit → Except Failure Unit},
      (x >>= f) = .ok () ↔ x = .ok () ∧ f () = .ok () := by
    intro x f
    rw [bind_eq_ok_iff]
    exact ⟨fun ⟨(), hx, hf⟩ => ⟨hx, hf⟩, fun ⟨hx, hf⟩ => ⟨(), hx, hf⟩⟩
  simp only [check, hunit, checkUnique_ok_iff, checkAll_eq_ok_iff]
  constructor
  · rintro ⟨⟨hfqns, hfresh⟩, hrest⟩
    have ha : c.Admits batch := ⟨hn, hnew, hfqns, hfresh⟩
    exact ⟨ha, (sound_iff hi ha ho).1 hrest⟩
  · rintro ⟨ha, hs⟩
    exact ⟨⟨ha.fqns_nodup, ha.fqns_new⟩, (sound_iff hi ha ho).2 hs⟩

end Linking
end TypeGraph
