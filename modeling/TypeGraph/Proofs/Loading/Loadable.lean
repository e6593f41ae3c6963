import TypeGraph.Proofs.Loading.Required

/-!
# Loadable requests

When a request for some roots succeeds, said without waves, traversals and checks: its roots and what
they require are answered, they do not depend on themselves, their full names are declared once, their
mentions lead to types, and nothing inherits from itself.

**Results.**
* `Discovery.Exact.link_iff`: what a batch alone has found is linked exactly when its request is
  loadable.
* `Alone.ok_iff`: a load alone succeeds exactly when its request is loadable.
* `Alone.published`: what it publishes then.
-/

namespace TypeGraph

section Loadable

variable (answer : String → Except Failure Manifest) (c : Catalog) (identifiers : List String)

/-- The assemblies that a request may refer to: those that are committed and those it adds. -/
def AtHand (m : Manifest) : Prop :=
  m ∈ c.assemblies ∨ Required answer c identifiers m

/-- A request for some roots that can be loaded. -/
structure Loadable : Prop where
  roots : ∀ identifier ∈ identifiers, c.hasAssembly identifier = false →
    ∃ m, answer identifier = .ok m
  dependencies : ∀ n, Required answer c identifiers n → ∀ name ∈ n.dependencyNames,
    c.hasAssembly name = false → rootNamed answer c identifiers name = none →
      ∃ m, answer name = .ok m ∧ m.name = name
  acyclic : ∀ name, ¬ Relation.TransGen (Depends (Required answer c identifiers)) name name
  fqns_once : ∀ m, Required answer c identifiers m → (m.types.map TypeDef.fqn).Nodup
  fqns_apart : ∀ m n, Required answer c identifiers m → Required answer c identifiers n →
    m.name ≠ n.name → ∀ t ∈ m.types, ∀ u ∈ n.types, t.fqn ≠ u.fqn
  fqns_new : ∀ m, Required answer c identifiers m → ∀ t ∈ m.types, ∀ u ∈ c.types, u.fqn ≠ t.fqn
  resolved : ∀ m, Required answer c identifiers m → ∀ t ∈ m.types, ∀ place fqn,
    t.Mentions place fqn → Leads (AtHand answer c identifiers) m.name place fqn
  bases : ∀ m, Required answer c identifiers m → ∀ t ∈ m.types, t.kind = .classKind → ∀ fqn,
    Relation.ReflTransGen (BaseLink (AtHand answer c identifiers)) t.fqn fqn →
      ¬ Relation.TransGen (BaseLink (AtHand answer c identifiers)) fqn fqn
  interfaces : ∀ m, Required answer c identifiers m → ∀ t ∈ m.types, t.kind = .interfaceKind →
    ∀ fqn, Relation.ReflTransGen (InterfaceLink (AtHand answer c identifiers)) t.fqn fqn →
      ¬ Relation.TransGen (InterfaceLink (AtHand answer c identifiers)) fqn fqn

end Loadable

/-- New assemblies of different names are admitted when their types are declared once, in different
assemblies and in the catalog. -/
theorem Catalog.admits_iff
    {c : Catalog}
    {batch : List Manifest}
    (hn : (batch.map Manifest.name).Nodup)
    (hnew : ∀ m ∈ batch, c.hasAssembly m.name = false) :
    c.Admits batch ↔
      (∀ m ∈ batch, (m.types.map TypeDef.fqn).Nodup) ∧
      (∀ m ∈ batch, ∀ n ∈ batch, m.name ≠ n.name →
        ∀ t ∈ m.types, ∀ u ∈ n.types, t.fqn ≠ u.fqn) ∧
      ∀ m ∈ batch, ∀ t ∈ m.types, ∀ u ∈ c.types, u.fqn ≠ t.fqn := by
  have hnames : batch.Pairwise fun m n => m.name ≠ n.name := List.pairwise_map.1 hn
  have hapart : batch.Pairwise (Function.onFun List.Disjoint fun m => m.types.map TypeDef.fqn) ↔
      ∀ m ∈ batch, ∀ n ∈ batch, m.name ≠ n.name →
        ∀ t ∈ m.types, ∀ u ∈ n.types, t.fqn ≠ u.fqn := by
    constructor
    · intro h m hm n hn' hne t ht u hu he
      have hsymm : Std.Symm (Function.onFun List.Disjoint fun m : Manifest =>
          m.types.map TypeDef.fqn) := ⟨fun _ _ hd _ hb ha => hd ha hb⟩
      have hd := h.forall hm hn' fun he => hne (by rw [he])
      exact hd (List.mem_map_of_mem ht) (he ▸ List.mem_map_of_mem hu)
    · intro h
      refine hnames.imp_of_mem fun {m n} hm hn' hne => ?_
      intro fqn hfm hfn
      obtain ⟨t, ht, rfl⟩ := List.mem_map.1 hfm
      obtain ⟨u, hu, he⟩ := List.mem_map.1 hfn
      exact h m hm n hn' hne t ht u hu he.symm
  have hfqns : ((batch.flatMap Manifest.types).map TypeDef.fqn).Nodup ↔
      (∀ m ∈ batch, (m.types.map TypeDef.fqn).Nodup) ∧
      ∀ m ∈ batch, ∀ n ∈ batch, m.name ≠ n.name →
        ∀ t ∈ m.types, ∀ u ∈ n.types, t.fqn ≠ u.fqn := by
    rw [List.map_flatMap, List.nodup_flatMap, hapart]
  constructor
  · intro h
    obtain ⟨honce, hap⟩ := hfqns.1 h.fqns_nodup
    exact ⟨honce, hap, fun m hm t ht => h.fqns_new t (List.mem_flatMap.2 ⟨m, hm, ht⟩)⟩
  · rintro ⟨honce, hap, hfresh⟩
    refine ⟨hn, hnew, hfqns.2 ⟨honce, hap⟩, fun t ht => ?_⟩
    obtain ⟨m, hm, ht⟩ := List.mem_flatMap.1 ht
    exact hfresh m hm t ht

section Link

variable {answer : String → Except Failure Manifest} {c : Catalog} {identifiers : List String}
  {d : Discovery}

theorem Discovery.Exact.fresh_eq
    (h : d.Exact answer c identifiers []) :
    d.fresh c = d.found := by
  refine List.filter_eq_self.2 fun m hm => ?_
  simp [(h.required m hm).new]

theorem Discovery.Exact.has_append_iff
    (h : d.Exact answer c identifiers []) :
    (c.append d.found).Has = AtHand answer c identifiers := by
  refine property_ext fun m => ?_
  rw [Catalog.Has, Catalog.append, List.mem_append, h.mem_found_iff]
  rfl

/-- There is one assembly of a name at hand. -/
theorem AtHand.unique
    (hc : c.Coherent)
    {m n : Manifest}
    (hm : AtHand answer c identifiers m)
    (hn : AtHand answer c identifiers n)
    (he : m.name = n.name) :
    m = n := by
  have hapart : ∀ {m n : Manifest}, c.Has m → Required answer c identifiers n → m.name ≠ n.name := by
    intro m n hm hn he
    exact Catalog.hasAssembly_eq_false_iff.1 hn.new m hm he
  rcases hm with hm | hm <;> rcases hn with hn | hn
  · exact List.inj_on_of_nodup_map hc.names_nodup hm hn he
  · exact absurd he (hapart hm hn)
  · exact absurd he.symm (hapart hn hm)
  · exact hm.unique hn he

/-- What an assembly at hand depends on is at hand, as long as what is required is answered. -/
theorem AtHand.depends_known
    (hc : c.Coherent)
    (hdeps : ∀ n, Required answer c identifiers n → ∀ name ∈ n.dependencyNames,
      c.hasAssembly name = false → rootNamed answer c identifiers name = none →
        ∃ m, answer name = .ok m ∧ m.name = name)
    {a b : String}
    (hd : Depends (AtHand answer c identifiers) a b) :
    Known (AtHand answer c identifiers) b := by
  obtain ⟨n, hn | hn, rfl, hb⟩ := hd
  · exact (hc.depends_known ⟨n, hn, rfl, hb⟩).mono fun _ => Or.inl
  · cases hcb : c.hasAssembly b with
    | true => exact (Catalog.known_has_iff.2 hcb).mono fun _ => Or.inl
    | false =>
        cases hroot : rootNamed answer c identifiers b with
        | some r =>
            have he := name_of_rootNamed hroot
            subst he
            exact ⟨r, Or.inr (Required.root ⟨hcb, hroot⟩), rfl⟩
        | none =>
            obtain ⟨r, hans, rfl⟩ := hdeps n hn b hb hcb hroot
            exact ⟨r, Or.inr (Required.dependency hn hb hcb hroot hans), rfl⟩

/-- What depends on a loadable request is at hand. -/
theorem Loadable.closed
    (h : Loadable answer c identifiers)
    (hc : c.Coherent)
    {m : Manifest}
    (hm : Required answer c identifiers m)
    {name : String}
    (hr : Relation.ReflTransGen (Depends (AtHand answer c identifiers)) m.name name) :
    Known (AtHand answer c identifiers) name := by
  induction hr with
  | refl => exact ⟨m, Or.inr hm, rfl⟩
  | tail _ hdep _ => exact AtHand.depends_known hc h.dependencies hdep

/-- What a batch alone has found is linked exactly when its request is loadable. -/
theorem Discovery.Exact.link_iff
    (h : d.Exact answer c identifiers [])
    (hc : c.Coherent)
    (hn : (d.found.map Manifest.name).Nodup)
    (ho : ∀ m ∈ d.found, m.Owns) :
    (∃ batch, d.link c = .ok batch) ↔ Loadable answer c identifiers := by
  have hnew : ∀ m ∈ d.found, c.hasAssembly m.name = false := fun m hm => (h.required m hm).new
  have hfound : (· ∈ d.found) = Required answer c identifiers :=
    property_ext fun m => h.mem_found_iff
  rw [Discovery.link_ok_iff hc.toIndexed hn ho, h.fresh_eq, Catalog.admits_iff hn hnew,
    h.has_append_iff, hfound]
  simp only [h.mem_found_iff]
  constructor
  · rintro ⟨hacyclic, ⟨honce, hapart, hfresh⟩, hs⟩
    refine ⟨h.roots_answered, ?_, hacyclic, honce, fun m n hm hn' => hapart m hm n hn', hfresh,
      hs.resolved, hs.bases, hs.interfaces⟩
    intro n hn' name hname hcn hroot
    have hrequested := (h.requests n (h.mem_found_iff.2 hn') name hname).resolve_left (by simp [hcn])
    obtain ⟨m, hm, rfl⟩ := (h.accounted name hrequested).resolve_left (by simp)
    cases h.required m hm with
    | root hnewroot =>
        rw [hnewroot.2] at hroot
        cases hroot
    | dependency _ _ _ _ hans => exact ⟨m, hans, rfl⟩
  · intro hload
    refine ⟨hload.acyclic, ⟨hload.fqns_once, fun m hm n hn' => hload.fqns_apart m n hm hn',
      hload.fqns_new⟩, ?_⟩
    exact {
      closed := fun m hm name hr => hload.closed hc hm hr
      resolved := hload.resolved
      bases := hload.bases
      interfaces := hload.interfaces }

end Link

section Alone

variable {resolver : Resolver} {limit : Option Number} {r after : TypeRegistry}
  {identifiers : List String} {result : Except Failure (List Manifest)}

/-- A load alone succeeds exactly when its request is loadable. -/
theorem Alone.ok_iff
    (hc : r.catalog.Coherent)
    (h : Alone resolver limit r identifiers (after, result)) :
    (∃ found, result = .ok found) ↔ Loadable (resolver.settle limit) r.catalog identifiers := by
  obtain ⟨b, hway, hstops⟩ := h
  have hb := hway.lawful
  obtain ⟨-, -, hexact⟩ := hway.exact
  rcases hstops with ⟨failure, hf, he⟩ | ⟨d, hw, hd, he⟩
  · cases he
    simp only [reduceCtorEq, exists_false, false_iff]
    intro hload
    obtain ⟨next, hm⟩ := hway.moves hload.roots hload.dependencies
    exact hf.not_moves hm
  · have hl := hb.learned d hd
    have hex := hexact d hd
    rw [hw] at hex hl
    rw [← hex.link_iff hc hl.found_nodup fun _ => hl.owns]
    rcases Run.settle_cases hl hc.toIndexed with
      ⟨failure, hlink, hs⟩ | ⟨batch, published, found, hlink, -, -, hs⟩ <;>
      rw [hs] at he <;> cases he
    · simp [hlink]
    · simp [hlink]

/-- What a load alone publishes: exactly what is required, in dependency order, and the roots in the
order of the request. -/
theorem Alone.published
    {found : List Manifest}
    (hc : r.catalog.Coherent)
    (h : Alone resolver limit r identifiers (after, .ok found)) :
    ∃ batch,
      (∀ m, m ∈ batch ↔ Required (resolver.settle limit) r.catalog identifiers m) ∧
      (batch.map Manifest.name).Nodup ∧
      DependencyFirst (fun name => r.catalog.hasAssembly name = true) batch ∧
      r.Published after batch (found.map Manifest.name) ∧
      List.Forall₂ (RootName (resolver.settle limit) r.catalog) identifiers
        (found.map Manifest.name) ∧
      ∀ m ∈ found, m ∈ after.catalog.assemblies := by
  rcases h.outcome hc with
    ⟨failure, hf, -⟩ | ⟨b, d, batch, found', hway, hw, hd, hlink, hpub, hfound, he⟩
  · cases hf
  · cases he
    have hl := hway.lawful.learned d hd
    have hex := (hway.exact).2.2 d hd
    rw [hw] at hex hl
    obtain ⟨hperm, hfirst, ha, -⟩ :=
      Discovery.link_ok hc.toIndexed hl.found_nodup (fun _ => hl.owns) hlink
    have hafter := hpub.coherent hl hc hlink
    obtain ⟨hnames, hmem⟩ := Catalog.assembliesNamed_ok hafter.names_nodup hfound
    rw [← hnames] at hpub
    refine ⟨batch, ?_, ha.names_nodup, hfirst, hpub, ?_, hmem⟩
    · intro m
      rw [hperm.mem_iff, hex.fresh_eq, hex.mem_found_iff]
    · rw [hnames]
      exact hex.named

end Alone
end TypeGraph
