import TypeGraph.Proofs.Loading.Began

/-!
# What leads a batch to an assembly

A batch asks for the dependencies of the manifests that it follows: those of its roots that it has
found, and those of each of its waves.  So a path leads from one of its roots to every name that it asks
for.  A manifest of a wave is followed even when its name has been committed since the wave was decided
on, and one that was found is left out at the end when its name is committed by then.  Where another
manifest of the name was committed, the one that was followed is displaced: it has led to what the batch
commits, but is not committed itself.

**Results.**
* `Batch.Fetched.moves`: what a batch has found was answered to what it has waited for.
* `Batch.Led.moves`, `Batch.Led.mono`: a path leads to every name that a batch asks for.
* `Run.turn_reasons`: what a load commits is reached from its roots, through manifests that are committed
  or displaced.
-/

namespace TypeGraph

/-- What a batch has found was answered to identifiers that it has waited for. -/
def Batch.Fetched (answer : String → Except Failure Manifest) (b : Batch) : Prop :=
  ∀ d, b.discovery = some d → ∀ m ∈ d.found, ∃ identifier ∈ b.touched, answer identifier = .ok m

section Fetched

variable {resolver : Resolver} {answer : String → Except Failure Manifest} {c : Catalog}
  {b next : Batch}

theorem Batch.Fetched.start
    (answer : String → Except Failure Manifest)
    (c : Catalog)
    (identifiers : List String) :
    (Batch.start c identifiers).Fetched answer := by
  intro d hd
  simp [Batch.start] at hd

/-- A batch that goes on has found more among what it has waited for. -/
theorem Batch.Fetched.moves
    (h : b.Fetched answer)
    (hl : b.Lawful answer c)
    (hm : b.Moves answer c next) :
    next.Fetched answer := by
  have htouched := hm.keeps.2
  obtain ⟨manifests, hans, ha⟩ := hm
  have hwave : ∀ m ∈ manifests, ∃ identifier ∈ b.touched, answer identifier = .ok m := by
    intro m hmem
    obtain ⟨identifier, hi, hok⟩ := exists_of_mem_results (mapM_eq_ok_iff.2 hans) hmem
    exact ⟨identifier, hl.wave_touched identifier hi, hok⟩
  have hnext : ∀ m, (∃ identifier ∈ b.touched, answer identifier = .ok m) →
      ∃ identifier ∈ next.touched, answer identifier = .ok m := by
    rintro m ⟨identifier, hi, hok⟩
    exact ⟨identifier, by simp [htouched, hi], hok⟩
  cases hd : b.discovery with
  | none =>
      rw [advance_none hd] at ha
      cases ha
      rintro d ⟨⟩ m hmem
      exact hnext m (hwave m (mem_of_mem_foundRoots hmem).1)
  | some d =>
      obtain ⟨-, rfl⟩ := (advance_some hans.length_eq hd).1 ha
      rintro d' ⟨⟩ m hmem
      rcases List.mem_append.1 hmem with hmem | hmem
      · exact hnext m (h d hd m hmem)
      · exact hnext m (hwave m (List.mem_filter.1 hmem).1)

end Fetched

/-- A manifest that a batch has followed: it was answered to an identifier that the batch has waited for,
its name was not committed when the batch began, and it was found or its name is committed. -/
structure Discovery.Follows (answer : String → Except Failure Manifest) (began c : Catalog)
    (touched : List String) (d : Discovery) (n : Manifest) : Prop where
  answered : ∃ identifier ∈ touched, answer identifier = .ok n
  new : began.hasAssembly n.name = false
  kept : n ∈ d.found ∨ c.hasAssembly n.name = true

/-- A path leads from the roots of a batch to each name that it asks for or has found. -/
structure Discovery.Led (answer : String → Except Failure Manifest) (began c : Catalog)
    (touched wave : List String) (d : Discovery) : Prop where
  wave_new : ∀ name ∈ wave, began.hasAssembly name = false
  found_new : ∀ m ∈ d.found, began.hasAssembly m.name = false
  paths : ∀ name ∈ d.requested, ∃ root ∈ d.rootNames,
    Relation.ReflTransGen (Depends (d.Follows answer began c touched)) root name

/-- What a batch has learned has paths to the names that it asks for. -/
def Batch.Led (answer : String → Except Failure Manifest) (began c : Catalog) (b : Batch) : Prop :=
  ∀ d, b.discovery = some d → d.Led answer began c b.touched b.wave

section Led

variable {resolver : Resolver} {answer : String → Except Failure Manifest} {began c c' : Catalog}
  {b next : Batch} {d d' : Discovery} {touched touched' : List String}

theorem Discovery.Follows.mono
    {n : Manifest}
    (h : d.Follows answer began c touched n)
    (ht : ∀ identifier ∈ touched, identifier ∈ touched')
    (hf : ∀ m ∈ d.found, m ∈ d'.found)
    (hw : c.Within c') :
    d'.Follows answer began c' touched' n where
  answered := by
    obtain ⟨identifier, hi, hok⟩ := h.answered
    exact ⟨identifier, ht identifier hi, hok⟩
  new := h.new
  kept := h.kept.imp (hf n) (hw n.name)

theorem Batch.Led.start
    (answer : String → Except Failure Manifest)
    (began c : Catalog)
    (identifiers : List String) :
    (Batch.start c identifiers).Led answer began c := by
  intro d hd
  simp [Batch.start] at hd

/-- What is committed meanwhile takes no path away. -/
theorem Batch.Led.mono
    (h : b.Led answer began c)
    (hw : c.Within c') :
    b.Led answer began c' := by
  intro d hd
  obtain ⟨hwave, hfound, hpaths⟩ := h d hd
  refine ⟨hwave, hfound, fun name hname => ?_⟩
  obtain ⟨root, hroot, hpath⟩ := hpaths name hname
  refine ⟨root, hroot, Depends.path_mono (fun n hn => ?_) hpath⟩
  exact hn.mono (fun _ hi => hi) (fun _ hm => hm) hw

/-- A name that was not committed later was not committed before. -/
theorem Catalog.Within.hasAssembly_eq_false
    (hw : c.Within c')
    {name : String}
    (h : c'.hasAssembly name = false) :
    c.hasAssembly name = false := by
  cases hc : c.hasAssembly name with
  | false => rfl
  | true =>
      rw [hw name hc] at h
      cases h

variable (hw : began.Within c)
include hw

/-- When the manifests of its roots are there, a path leads to what they depend on. -/
theorem Batch.Led.discoverRoots
    {manifests : List Manifest}
    (hl : b.Lawful answer c)
    (hb : b.Began answer began)
    (hd : b.discovery = none)
    (hm : List.Forall₂ (fun identifier m => answer identifier = .ok m) b.wave manifests) :
    (b.goOn c (Discovery.foundRoots c [] manifests)
      ((Discovery.foundRoots c [] manifests).map Manifest.name) (b.rootNames manifests)
      (Discovery.foundRoots c [] manifests)).Led answer began c := by
  have hnamed := Batch.forall_rootName (hb.waits hd) hm
  rintro d' ⟨⟩
  have hfound : ∀ m ∈ Discovery.foundRoots c [] manifests, began.hasAssembly m.name = false :=
    fun m hmem => hw.hasAssembly_eq_false (mem_of_mem_foundRoots hmem).2
  -- a root that was found was not committed when the batch began, so its name is that of a root
  have hroot : ∀ m ∈ Discovery.foundRoots c [] manifests, m.name ∈ b.rootNames manifests ∧
      ∃ identifier ∈ b.wave, answer identifier = .ok m := by
    intro m hmem
    obtain ⟨identifier, hi, hok⟩ :=
      exists_of_mem_results (mapM_eq_ok_iff.2 hm) (mem_of_mem_foundRoots hmem).1
    have hwave := hi
    rw [hb.waits hd, mem_firstWave_iff] at hwave
    refine ⟨(mem_rootNames_iff hnamed).2 ⟨identifier, hwave.1, Or.inr ⟨hwave.2, m, hok, rfl⟩⟩, ?_⟩
    exact ⟨identifier, hi, hok⟩
  refine ⟨fun name hname => ?_, hfound, fun name hname => ?_⟩
  · exact hw.hasAssembly_eq_false (Discovery.mem_newNames_iff.1 hname).2.2
  · rcases List.mem_append.1 hname with hname | hname
    · obtain ⟨m, hmem, rfl⟩ := List.mem_map.1 hname
      exact ⟨m.name, (hroot m hmem).1, .refl⟩
    · obtain ⟨-, m, hmem, hdep⟩ := needed_of_new hname
      obtain ⟨hname', identifier, hi, hok⟩ := hroot m hmem
      refine ⟨m.name, hname', .single ⟨m, ⟨?_, hfound m hmem, Or.inl hmem⟩, rfl, hdep⟩⟩
      exact ⟨identifier, List.mem_append_left _ (hl.wave_touched identifier hi), hok⟩

/-- When a wave of dependencies is there, the paths go on to what they depend on. -/
theorem Batch.Led.discoverDependencies
    {manifests : List Manifest}
    (h : b.Led answer began c)
    (hl : b.Lawful answer c)
    (hd : b.discovery = some d)
    (hm : List.Forall₂ (fun identifier m => answer identifier = .ok m) b.wave manifests)
    (hnames : manifests.map Manifest.name = b.wave) :
    (b.goOn c (d.found ++ manifests.filter fun m => !c.hasAssembly m.name) d.requested d.rootNames
      manifests).Led answer began c := by
  obtain ⟨hwave, hfound, hpaths⟩ := h d hd
  rintro d' ⟨⟩
  have hasked : ∀ m ∈ manifests, m.name ∈ b.wave := by
    intro m hmem
    rw [← hnames]
    exact List.mem_map_of_mem hmem
  have hstays : ∀ root name,
      Relation.ReflTransGen (Depends (d.Follows answer began c b.touched)) root name →
        Relation.ReflTransGen (Depends (Discovery.Follows answer began c
          (b.touched ++ Discovery.newNames c d.requested (manifests.flatMap Manifest.dependencyNames))
          ⟨d.found ++ manifests.filter fun m => !c.hasAssembly m.name,
            d.requested ++
              Discovery.newNames c d.requested (manifests.flatMap Manifest.dependencyNames),
            d.rootNames⟩)) root name := by
    intro root name
    refine Depends.path_mono fun n hn => ?_
    exact hn.mono (fun _ hi => List.mem_append_left _ hi)
      (fun _ hmem => List.mem_append_left _ hmem) fun _ hname => hname
  refine ⟨fun name hname => ?_, fun m hmem => ?_, fun name hname => ?_⟩
  · exact hw.hasAssembly_eq_false (Discovery.mem_newNames_iff.1 hname).2.2
  · rcases List.mem_append.1 hmem with hmem | hmem
    · exact hfound m hmem
    · exact hwave _ (hasked m (List.mem_filter.1 hmem).1)
  · rcases List.mem_append.1 hname with hname | hname
    · obtain ⟨root, hroot, hpath⟩ := hpaths name hname
      exact ⟨root, hroot, hstays root name hpath⟩
    · -- a manifest of the wave is followed whether or not its name has been committed meanwhile
      obtain ⟨-, m, hmem, hdep⟩ := needed_of_new hname
      have hask := hasked m hmem
      obtain ⟨root, hroot, hpath⟩ := hpaths m.name ((hl.learned d hd).wave_requested _ hask)
      refine ⟨root, hroot, (hstays root _ hpath).tail ⟨m, ⟨?_, hwave _ hask, ?_⟩, rfl, hdep⟩⟩
      · exact ⟨m.name, List.mem_append_left _ (hl.wave_touched _ hask),
          answer_name_of_mem hm hnames hmem⟩
      · cases hc : c.hasAssembly m.name with
        | true => exact Or.inr rfl
        | false => exact Or.inl (List.mem_append_right _ (List.mem_filter.2 ⟨hmem, by simp [hc]⟩))

/-- A batch that goes on has paths to the names that it asks for then. -/
theorem Batch.Led.moves
    (h : b.Led answer began c)
    (hl : b.Lawful answer c)
    (hb : b.Began answer began)
    (hm : b.Moves answer c next) :
    next.Led answer began c := by
  obtain ⟨manifests, hans, ha⟩ := hm
  cases hd : b.discovery with
  | none =>
      rw [advance_none hd] at ha
      cases ha
      exact discoverRoots hw hl hb hd hans
  | some d =>
      obtain ⟨hnames, rfl⟩ := (advance_some hans.length_eq hd).1 ha
      exact h.discoverDependencies hw hl hd hans hnames

end Led

/-- A manifest that was answered to one of some identifiers, of a name that was not committed at first,
while another manifest of its name has been committed. -/
structure Displaced (answer : String → Except Failure Manifest) (touched : List String)
    (began c : Catalog) (n : Manifest) : Prop where
  answered : ∃ identifier ∈ touched, answer identifier = .ok n
  new : began.hasAssembly n.name = false
  other : ∃ m ∈ c.assemblies, m.name = n.name ∧ m ≠ n

/-- A load that ends with its assemblies has published what is reached from the names of its roots,
through dependencies that are declared by manifests that are committed then or that are displaced. -/
theorem Run.turn_reasons
    {resolver : Resolver}
    {limit : Option Number}
    {began : Catalog}
    {r after : TypeRegistry}
    {b : Batch}
    {found : List Manifest}
    (hc : r.catalog.Coherent)
    (hw : began.Within r.catalog)
    (hl : b.Lawful (resolver.settle limit) r.catalog)
    (hb : b.Began (resolver.settle limit) began)
    (hled : b.Led (resolver.settle limit) began r.catalog)
    (h : Turn (resolver.settle limit) r b after (.ended (.ok found))) :
    ∃ batch, r.Published after batch (found.map Manifest.name) ∧
      ∀ m ∈ batch, ∃ root ∈ found.map Manifest.name, Relation.ReflTransGen (Depends fun n =>
        after.catalog.Has n ∨ Displaced (resolver.settle limit) b.touched began r.catalog n)
          root m.name := by
  rcases h.ended with ⟨failure, -, he⟩ | ⟨next, d, hm, hwave, hd, he⟩
  · cases he
  have hlearned := (hm.lawful hl).learned d hd
  rcases settle_cases hlearned hc.toIndexed with
    ⟨failure, -, hs⟩ | ⟨batch, published, found', hlink, hpub, hfound, hs⟩ <;>
    rw [hs] at he <;> cases he
  have hcoherent := hpub.coherent hlearned hc hlink
  obtain ⟨hnames, -⟩ := Catalog.assembliesNamed_ok hcoherent.names_nodup hfound
  obtain ⟨hperm, -⟩ := Discovery.link_ok hc.toIndexed hlearned.found_nodup
    (fun _ => hlearned.owns) hlink
  obtain ⟨-, -, hpaths⟩ := hled.moves hw hl hb hm d hd
  have htouched : next.touched = b.touched := by simp [hm.keeps.2, hwave]
  rw [htouched] at hpaths
  rw [← hnames] at hpub hpaths
  refine ⟨batch, hpub, fun m hmem => ?_⟩
  obtain ⟨root, hroot, hpath⟩ := hpaths m.name
    (hlearned.found_requested m (Discovery.mem_fresh_iff.1 (hperm.mem_iff.1 hmem)).1)
  -- what was followed is published now, or its name was committed before with this manifest or another
  refine ⟨root, hroot, Depends.path_mono (fun n hn => ?_) hpath⟩
  cases hknown : r.catalog.hasAssembly n.name with
  | false =>
      have hfresh := Discovery.mem_fresh_iff.2 ⟨hn.kept.resolve_right (by simp [hknown]), hknown⟩
      exact Or.inl (hpub.has_iff.2 (Or.inr (hperm.mem_iff.2 hfresh)))
  | true =>
      obtain ⟨n', hn', hname⟩ := Catalog.hasAssembly_iff.1 hknown
      by_cases hsame : n' = n
      · exact Or.inl (hpub.has_iff.2 (Or.inl (hsame ▸ hn')))
      · exact Or.inr ⟨hn.answered, hn.new, n', hn', hname, hsame⟩

end TypeGraph
