import TypeGraph.Proofs.Loading.Required

/-!
# What a batch accounts for

Whatever else is committed while a batch is on its way, it loses track of nothing: what it has waited
for was answered with an assembly that is committed or found, and what its assemblies depend on is
committed, found or asked for.  So when no wave is left, everything that it needs is there.

**Results.**
* `Batch.Supplied.start`, `Batch.Supplied.mono`, `Batch.Supplied.moves`: batches stay supplied.
* `Discovery.Supplied.dependencies`: at its end a batch has what its assemblies depend on.
* `Registry.Published.hasAssembly_of_supplies`: what a batch had at its end is committed with it.
-/

namespace TypeGraph

/-- A name is committed, or it is that of an assembly that was found. -/
def Discovery.Supplies (c : Catalog) (d : Discovery) (name : String) : Prop :=
  c.hasAssembly name = true ∨ ∃ m ∈ d.found, m.name = name

/-- What a batch has learned leads to names that it accounts for, while it waits for a wave. -/
structure Discovery.Supplied (c : Catalog) (wave : List String) (d : Discovery) : Prop where
  declared : ∀ m ∈ d.found, ∀ name ∈ m.dependencyNames,
    c.hasAssembly name = true ∨ name ∈ d.requested
  accounted : ∀ name ∈ d.requested, name ∈ wave ∨ d.Supplies c name

/-- A batch accounts for everything that it has waited for and that it needs. -/
structure Batch.Supplied (answer : String → Except Failure Manifest) (c : Catalog) (b : Batch) :
    Prop where
  waits : b.discovery = none → ∀ identifier ∈ b.touched, identifier ∈ b.wave
  touched : ∀ d, b.discovery = some d → ∀ identifier ∈ b.touched,
    identifier ∈ b.wave ∨ ∃ m, answer identifier = .ok m ∧ d.Supplies c m.name
  learned : ∀ d, b.discovery = some d → d.Supplied c b.wave

section Supplied

variable {answer : String → Except Failure Manifest} {c c' : Catalog} {b : Batch} {d : Discovery}
  {wave : List String}

theorem Discovery.Supplies.mono
    {name : String}
    (h : d.Supplies c name)
    (hw : c.Within c') :
    d.Supplies c' name :=
  h.imp_left (hw name)

/-- A manifest of a wave of dependencies is committed or found under its name. -/
theorem Discovery.exists_added
    (found : List Manifest)
    {manifests : List Manifest}
    {m : Manifest}
    (hm : m ∈ manifests) :
    c.hasAssembly m.name = true ∨
      ∃ n ∈ found ++ manifests.filter fun m => !c.hasAssembly m.name, n.name = m.name := by
  cases hc : c.hasAssembly m.name with
  | true => exact Or.inl rfl
  | false =>
      exact Or.inr ⟨m, List.mem_append_right _ (List.mem_filter.2 ⟨hm, by simp [hc]⟩), rfl⟩

/-- What was found before a wave is found after it. -/
theorem Discovery.Supplies.added
    {name : String}
    (h : d.Supplies c name)
    (manifests : List Manifest) :
    c.hasAssembly name = true ∨ ∃ n ∈ d.found ++ manifests, n.name = name := by
  refine h.imp_right ?_
  rintro ⟨m, hm, he⟩
  exact ⟨m, List.mem_append_left _ hm, he⟩

/-- When no wave is left, everything that the assemblies depend on is committed or found. -/
theorem Discovery.Supplied.dependencies
    (h : d.Supplied c [])
    {m : Manifest}
    (hm : m ∈ d.found)
    {name : String}
    (hname : name ∈ m.dependencyNames) :
    d.Supplies c name := by
  rcases h.declared m hm name hname with hc | hr
  · exact Or.inl hc
  · exact (h.accounted name hr).resolve_left (by simp)

namespace Batch

theorem Supplied.start
    (answer : String → Except Failure Manifest)
    (c : Catalog)
    (identifiers : List String) :
    (Batch.start c identifiers).Supplied answer c where
  waits _ _ hi := hi
  touched d hd := by simp [Batch.start] at hd
  learned d hd := by simp [Batch.start] at hd

theorem Supplied.mono
    (h : b.Supplied answer c)
    (hw : c.Within c') :
    b.Supplied answer c' where
  waits := h.waits
  touched d hd identifier hi := by
    refine (h.touched d hd identifier hi).imp_right ?_
    rintro ⟨m, hans, hs⟩
    exact ⟨m, hans, hs.mono hw⟩
  learned d hd :=
    { declared := fun m hm name hname =>
        ((h.learned d hd).declared m hm name hname).imp_left (hw name)
      accounted := fun name hname =>
        ((h.learned d hd).accounted name hname).imp_right fun hs => hs.mono hw }

/-- When the manifests of its roots are there a batch accounts for them. -/
theorem Supplied.discoverRoots
    {manifests : List Manifest}
    (h : b.Supplied answer c)
    (hd : b.discovery = none)
    (hm : List.Forall₂ (fun identifier m => answer identifier = .ok m) b.wave manifests) :
    (b.goOn c (Discovery.foundRoots c [] manifests)
      ((Discovery.foundRoots c [] manifests).map Manifest.name) (b.rootNames manifests)
      (Discovery.foundRoots c [] manifests)).Supplied answer c where
  waits hnone := by simp [goOn] at hnone
  touched := by
    rintro d ⟨⟩ identifier hi
    rcases List.mem_append.1 hi with hi | hi
    · obtain ⟨m, hmem, hans⟩ :=
        exists_result_of_mem (mapM_eq_ok_iff.2 hm) (h.waits hd identifier hi)
      exact Or.inr ⟨m, hans, exists_foundRoots hmem⟩
    · exact Or.inl hi
  learned := by
    rintro d ⟨⟩
    refine ⟨fun m hmem name hname => mem_requested_or_new hmem hname, fun name hname => ?_⟩
    rcases List.mem_append.1 hname with hname | hname
    · exact Or.inr (Or.inr (List.mem_map.1 hname))
    · exact Or.inl hname

/-- When a wave of dependencies is there a batch accounts for it. -/
theorem Supplied.discoverDependencies
    {manifests : List Manifest}
    (h : b.Supplied answer c)
    (hd : b.discovery = some d)
    (hm : List.Forall₂ (fun identifier m => answer identifier = .ok m) b.wave manifests)
    (hnames : manifests.map Manifest.name = b.wave) :
    (b.goOn c (d.found ++ manifests.filter fun m => !c.hasAssembly m.name) d.requested d.rootNames
      manifests).Supplied answer c where
  waits hnone := by simp [goOn] at hnone
  touched := by
    rintro d' ⟨⟩ identifier hi
    rcases List.mem_append.1 hi with hi | hi
    · rcases h.touched d hd identifier hi with hw | ⟨m, hans, hs⟩
      · obtain ⟨m, hmem, hans⟩ := exists_result_of_mem (mapM_eq_ok_iff.2 hm) hw
        exact Or.inr ⟨m, hans, Discovery.exists_added d.found hmem⟩
      · exact Or.inr ⟨m, hans, hs.added _⟩
    · exact Or.inl hi
  learned := by
    have hl := h.learned d hd
    rintro d' ⟨⟩
    constructor
    · intro m hmem name hname
      rcases List.mem_append.1 hmem with hmem | hmem
      · exact (hl.declared m hmem name hname).imp_right (List.mem_append_left _)
      · exact mem_requested_or_new (List.mem_filter.1 hmem).1 hname
    · intro name hname
      rcases List.mem_append.1 hname with hname | hname
      · rcases hl.accounted name hname with hw | hs
        · rw [← hnames] at hw
          obtain ⟨m, hmem, rfl⟩ := List.mem_map.1 hw
          exact Or.inr (Discovery.exists_added d.found hmem)
        · exact Or.inr (hs.added _)
      · exact Or.inl hname

/-- A batch that goes on stays supplied. -/
theorem Supplied.moves
    {next : Batch}
    (h : b.Supplied answer c)
    (hm : b.Moves answer c next) :
    next.Supplied answer c := by
  obtain ⟨manifests, hans, ha⟩ := hm
  cases hd : b.discovery with
  | none =>
      rw [advance_none hd] at ha
      cases ha
      exact h.discoverRoots hd hans
  | some d =>
      obtain ⟨hnames, rfl⟩ := (advance_some hans.length_eq hd).1 ha
      exact h.discoverDependencies hd hans hnames

end Batch

/-- What a batch had at its end is committed when it has been published. -/
theorem Registry.Published.hasAssembly_of_supplies
    {resolver : Resolver}
    {limit : Option Number}
    {r after : TypeRegistry}
    {batch : List Manifest}
    {roots : List String}
    (h : r.Published after batch roots)
    (hi : r.catalog.Indexed)
    (hd : d.Lawful (resolver.settle limit) r.catalog wave)
    (hlink : d.link r.catalog = .ok batch)
    {name : String}
    (hs : d.Supplies r.catalog name) :
    after.catalog.hasAssembly name = true := by
  have hnew := Discovery.hasAssembly_of_link hi hd.found_nodup (fun _ => hd.owns) hlink hs
  obtain ⟨m, hm, he⟩ := Catalog.hasAssembly_iff.1 hnew
  exact Catalog.hasAssembly_iff.2 ⟨m, h.assemblies_eq ▸ hm, he⟩

end Supplied

/-- The batches of some requests are supplied before they have had a turn. -/
theorem Run.supplied_start
    (answer : String → Except Failure Manifest)
    (c : Catalog)
    (groups : List (List String)) :
    ∀ b, .active b ∈ groups.map (fun identifiers => BatchState.active (.start c identifiers)) →
      b.Supplied answer c := by
  intro b hb
  obtain ⟨identifiers, -, he⟩ := List.mem_map.1 hb
  cases he
  exact Batch.Supplied.start _ _ _

/-- Turns keep batches supplied. -/
theorem Run.kept_supplied
    (resolver : Resolver)
    (limit : Option Number) :
    Run.Kept resolver limit fun r _ batches =>
      ∀ b, .active b ∈ batches → b.Supplied (resolver.settle limit) r.catalog where
  goesOn r ended before b after next hc hb h ht := by
    obtain ⟨-, hm, -⟩ := ht.active
    intro b' hb'
    rcases active_of_turned (.active b) hb' with he | hold
    · cases he
      exact (h b (by simp)).moves hm
    · exact h b' hold
  ends r ended before b after r' result hc hb h ht := by
    obtain ⟨-, hw⟩ := ht.coherent hc hb
    intro b' hb'
    rcases active_of_turned (.active b) hb' with he | hold
    · cases he
    · exact (h b' hold).mono hw

end TypeGraph
