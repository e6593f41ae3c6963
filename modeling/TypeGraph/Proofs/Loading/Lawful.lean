import TypeGraph.Proofs.Loading.Wave

/-!
# Batches on their way

What holds of a batch from its start to its end, whatever else is committed meanwhile: the assemblies
found have different names and were answered by the resolver, a wave asks for nothing that was found
before, and every root is committed or found.

**Results.**
* `Batch.advance_none`, `Batch.advance_some`: what a batch is after a wave, in closed form.
* `Batch.Lawful.start`, `Batch.Lawful.mono`, `Batch.Lawful.advance`: batches stay lawful.
-/

namespace TypeGraph
namespace Batch

/-- The names of the roots of a batch, when their manifests are there. -/
def rootNames (b : Batch) (manifests : List Manifest) : List String :=
  b.identifiers.map fun identifier =>
    ((b.wave.zip (manifests.map Manifest.name)).lookup identifier).getD identifier

/-- A batch that goes on with the dependencies of some manifests. -/
def goOn (c : Catalog) (b : Batch) (found : List Manifest) (requested rootNames : List String)
    (manifests : List Manifest) : Batch :=
  let wave := Discovery.newNames c requested (manifests.flatMap Manifest.dependencyNames)
  { identifiers := b.identifiers
    wave := wave
    discovery := some ⟨found, requested ++ wave, rootNames⟩
    touched := b.touched ++ wave }

section Advance

variable {c : Catalog} {b next : Batch} {d : Discovery} {manifests : List Manifest}

/-- When its roots are there a batch goes on with their dependencies. -/
theorem advance_none
    (h : b.discovery = none) :
    b.advance c manifests =
      .ok (b.goOn c (Discovery.foundRoots c [] manifests)
        ((Discovery.foundRoots c [] manifests).map Manifest.name) (b.rootNames manifests)
        (Discovery.foundRoots c [] manifests)) := by
  simp only [advance, h, discoverRoots, Discovery.nextWave_eq]
  rfl

/-- Manifests that each declare the name they were asked for have the names of their wave. -/
theorem forall_zip_iff
    {wave : List String}
    (hl : wave.length = manifests.length) :
    (∀ a ∈ wave.zip manifests, a.2.name = a.1) ↔ manifests.map Manifest.name = wave := by
  induction wave generalizing manifests with
  | nil =>
      have hnil : manifests = [] := List.length_eq_zero_iff.1 hl.symm
      simp [hnil]
  | cons name rest ih =>
      cases manifests with
      | nil => simp at hl
      | cons m rest' =>
          rw [List.zip_cons_cons, List.forall_mem_cons, ih (by simpa using hl), List.map_cons,
            List.cons.injEq]

/-- Each manifest of such a wave is the answer to the name that it declares. -/
theorem answer_name_of_mem
    {answer : String → Except Failure Manifest}
    {wave : List String}
    (h : List.Forall₂ (fun identifier m => answer identifier = .ok m) wave manifests)
    (hnames : manifests.map Manifest.name = wave)
    {m : Manifest}
    (hm : m ∈ manifests) :
    answer m.name = .ok m := by
  induction h with
  | nil => simp at hm
  | @cons first n rest rest' hfirst _ ih =>
      rw [List.map_cons, List.cons.injEq] at hnames
      rcases List.mem_cons.1 hm with rfl | hm
      · rw [hnames.1, hfirst]
      · exact ih hnames.2 hm

/-- Where every answer declares its identifier the manifests of a wave have its names. -/
theorem map_name_of_answers
    {answer : String → Except Failure Manifest}
    {wave : List String}
    (h : List.Forall₂ (fun identifier m => answer identifier = .ok m) wave manifests)
    (hname : ∀ identifier ∈ wave, ∀ m, answer identifier = .ok m → m.name = identifier) :
    manifests.map Manifest.name = wave := by
  induction h with
  | nil => rfl
  | @cons first m rest rest' hfirst _ ih =>
      rw [List.map_cons, hname first (by simp) m hfirst,
        ih fun identifier hi => hname identifier (List.mem_cons_of_mem _ hi)]

/-- When a wave of dependencies is there a batch goes on if each declares the name it was asked
for. -/
theorem advance_some
    (hl : b.wave.length = manifests.length)
    (h : b.discovery = some d) :
    b.advance c manifests = .ok next ↔
      manifests.map Manifest.name = b.wave ∧
        next = b.goOn c (d.found ++ manifests.filter fun m => !c.hasAssembly m.name)
          d.requested d.rootNames manifests := by
  have hsnd : (b.wave.zip manifests).map Prod.snd = manifests :=
    List.map_snd_zip (Nat.le_of_eq hl.symm)
  rw [← forall_zip_iff hl]
  simp only [advance, h, discoverDependencies, Discovery.nextWave_eq]
  split
  · rename_i failure herror
    simp only [reduceCtorEq, false_iff, not_and]
    intro hall
    rw [Discovery.addWave_ok_iff.2 ⟨hall, rfl⟩] at herror
    cases herror
  · rename_i found hok
    obtain ⟨hall, rfl⟩ := Discovery.addWave_ok_iff.1 hok
    rw [hsnd]
    simp only [Except.ok.injEq, goOn]
    exact ⟨fun he => ⟨hall, he.symm⟩, fun he => he.2.symm⟩

end Advance
end Batch

/-- What a batch has learned, while it waits for a wave. -/
structure Discovery.Lawful (answer : String → Except Failure Manifest) (c : Catalog)
    (wave : List String) (d : Discovery) : Prop where
  found_nodup : (d.found.map Manifest.name).Nodup
  answered : ∀ m ∈ d.found, ∃ identifier, answer identifier = .ok m
  found_requested : ∀ m ∈ d.found, m.name ∈ d.requested
  wave_requested : ∀ name ∈ wave, name ∈ d.requested
  wave_new : ∀ m ∈ d.found, m.name ∉ wave
  roots_known : ∀ name ∈ d.rootNames, c.hasAssembly name = true ∨ ∃ m ∈ d.found, m.name = name

/-- What holds of a batch on its way, given what is committed by then. -/
structure Batch.Lawful (answer : String → Except Failure Manifest) (c : Catalog) (b : Batch) :
    Prop where
  wave_nodup : b.wave.Nodup
  wave_touched : ∀ identifier ∈ b.wave, identifier ∈ b.touched
  waits : b.discovery = none →
    ∀ identifier ∈ b.identifiers, c.hasAssembly identifier = true ∨ identifier ∈ b.wave
  learned : ∀ d, b.discovery = some d → d.Lawful answer c b.wave

namespace Batch

section Lawful

variable {answer : String → Except Failure Manifest} {c : Catalog} {b : Batch}

theorem Lawful.start
    (answer : String → Except Failure Manifest)
    (c : Catalog)
    (identifiers : List String) :
    (Batch.start c identifiers).Lawful answer c where
  wave_nodup := firstWave_nodup c identifiers
  wave_touched _ hi := hi
  waits := by
    intro _ identifier hi
    cases hc : c.hasAssembly identifier with
    | true => exact Or.inl rfl
    | false => exact Or.inr (mem_firstWave_iff.2 ⟨hi, hc⟩)
  learned := by
    intro d hd
    simp [Batch.start] at hd

theorem Lawful.mono
    {c' : Catalog}
    (h : b.Lawful answer c)
    (hc : c.Within c') :
    b.Lawful answer c' where
  wave_nodup := h.wave_nodup
  wave_touched := h.wave_touched
  waits hd identifier hi := (h.waits hd identifier hi).imp_left (hc identifier)
  learned d hd :=
    { h.learned d hd with
      roots_known := fun name hname => ((h.learned d hd).roots_known name hname).imp_left (hc name) }

/-- Of the manifests of the roots each is committed or found, under its name. -/
theorem exists_foundRoots
    {manifests : List Manifest}
    {m : Manifest}
    (hm : m ∈ manifests) :
    c.hasAssembly m.name = true ∨ ∃ n ∈ Discovery.foundRoots c [] manifests, n.name = m.name := by
  cases hc : c.hasAssembly m.name with
  | true => exact Or.inl rfl
  | false =>
      cases hf : manifests.find? fun n => n.name == m.name with
      | none =>
          have hnone := List.find?_eq_none.1 hf m hm
          simp at hnone
      | some n =>
          have hname : n.name = m.name := by simpa using List.find?_some hf
          refine Or.inr ⟨n, Discovery.mem_foundRoots_iff.2 (Or.inr ⟨rfl, ?_, ?_⟩), hname⟩
          · rw [hname, hc]
          · rw [hname, hf]

theorem mem_of_mem_foundRoots
    {manifests : List Manifest}
    {m : Manifest}
    (hm : m ∈ Discovery.foundRoots c [] manifests) :
    m ∈ manifests ∧ c.hasAssembly m.name = false := by
  rcases Discovery.mem_foundRoots_iff.1 hm with hm | ⟨-, hc, hf⟩
  · simp at hm
  · exact ⟨List.mem_of_find?_eq_some hf, hc⟩

/-- The name of a root: that of its manifest, or its identifier if it was not asked for. -/
theorem lookup_zip_names
    {wave : List String}
    {manifests : List Manifest}
    (h : List.Forall₂ (fun identifier m => answer identifier = .ok m) wave manifests)
    (identifier : String) :
    (identifier ∉ wave ∧ (wave.zip (manifests.map Manifest.name)).lookup identifier = none) ∨
      identifier ∈ wave ∧ ∃ m ∈ manifests, answer identifier = .ok m ∧
        (wave.zip (manifests.map Manifest.name)).lookup identifier = some m.name := by
  induction h with
  | nil => simp
  | @cons first m rest rest' hfirst _ ih =>
      by_cases hi : identifier = first
      · subst hi
        exact Or.inr ⟨by simp, m, by simp, hfirst, by simp⟩
      · have hi' : (identifier == first) = false := by simpa using hi
        rcases ih with ⟨hnew, hnone⟩ | ⟨hmem, n, hn, hans, hsome⟩
        · exact Or.inl ⟨by simp [hi, hnew], by simpa [List.lookup_cons, hi'] using hnone⟩
        · exact Or.inr ⟨List.mem_cons_of_mem _ hmem, n, List.mem_cons_of_mem _ hn, hans,
            by simpa [List.lookup_cons, hi'] using hsome⟩

theorem Lawful.discoverRoots
    {manifests : List Manifest}
    (h : b.Lawful answer c)
    (hd : b.discovery = none)
    (hm : List.Forall₂ (fun identifier m => answer identifier = .ok m) b.wave manifests) :
    (b.goOn c (Discovery.foundRoots c [] manifests)
      ((Discovery.foundRoots c [] manifests).map Manifest.name) (b.rootNames manifests)
      (Discovery.foundRoots c [] manifests)).Lawful answer c where
  wave_nodup := Discovery.newNames_nodup _ _ _
  wave_touched _ hi := List.mem_append_right _ hi
  waits hnone := by simp [goOn] at hnone
  learned := by
    rintro d ⟨⟩
    refine ⟨Discovery.foundRoots_nodup List.nodup_nil, ?_, ?_, ?_, ?_, ?_⟩
    · intro m hmem
      obtain ⟨identifier, -, hans⟩ :=
        exists_of_mem_results (mapM_eq_ok_iff.2 hm) (mem_of_mem_foundRoots hmem).1
      exact ⟨identifier, hans⟩
    · exact fun m hmem => List.mem_append_left _ (List.mem_map_of_mem hmem)
    · exact fun name hname => List.mem_append_right _ hname
    · intro m hmem hwave
      exact (Discovery.mem_newNames_iff.1 hwave).2.1 (List.mem_map_of_mem hmem)
    · intro name hname
      obtain ⟨identifier, hi, rfl⟩ := List.mem_map.1 hname
      rcases lookup_zip_names hm identifier with ⟨hnew, hnone⟩ | ⟨-, m, hmem, -, hsome⟩
      · rw [hnone]
        exact Or.inl ((h.waits hd identifier hi).resolve_right hnew)
      · rw [hsome]
        exact exists_foundRoots hmem

theorem Lawful.discoverDependencies
    {d : Discovery}
    {manifests : List Manifest}
    (h : b.Lawful answer c)
    (hd : b.discovery = some d)
    (hm : List.Forall₂ (fun identifier m => answer identifier = .ok m) b.wave manifests)
    (hnames : manifests.map Manifest.name = b.wave) :
    (b.goOn c (d.found ++ manifests.filter fun m => !c.hasAssembly m.name) d.requested d.rootNames
      manifests).Lawful answer c where
  wave_nodup := Discovery.newNames_nodup _ _ _
  wave_touched _ hi := List.mem_append_right _ hi
  waits hnone := by simp [goOn] at hnone
  learned := by
    have hl := h.learned d hd
    have hwave : ∀ m ∈ manifests, m.name ∈ b.wave := by
      intro m hmem
      rw [← hnames]
      exact List.mem_map_of_mem hmem
    have hrequested : ∀ m ∈ d.found ++ manifests.filter fun m => !c.hasAssembly m.name,
        m.name ∈ d.requested := by
      intro m hmem
      rcases List.mem_append.1 hmem with hmem | hmem
      · exact hl.found_requested m hmem
      · exact hl.wave_requested _ (hwave m (List.mem_filter.1 hmem).1)
    rintro d' ⟨⟩
    refine ⟨?_, ?_, ?_, ?_, ?_, ?_⟩
    · rw [List.map_append]
      refine List.nodup_append.2 ⟨hl.found_nodup, ?_, ?_⟩
      · have hsub := (List.filter_sublist (p := fun m => !c.hasAssembly m.name) (l := manifests)).map
          Manifest.name
        rw [hnames] at hsub
        exact h.wave_nodup.sublist hsub
      · intro a ha a' ha' he
        obtain ⟨m, hmem, rfl⟩ := List.mem_map.1 ha
        obtain ⟨n, hn, rfl⟩ := List.mem_map.1 ha'
        exact hl.wave_new m hmem (he ▸ hwave n (List.mem_filter.1 hn).1)
    · intro m hmem
      rcases List.mem_append.1 hmem with hmem | hmem
      · exact hl.answered m hmem
      · obtain ⟨identifier, -, hans⟩ :=
          exists_of_mem_results (mapM_eq_ok_iff.2 hm) (List.mem_filter.1 hmem).1
        exact ⟨identifier, hans⟩
    · exact fun m hmem => List.mem_append_left _ (hrequested m hmem)
    · exact fun name hname => List.mem_append_right _ hname
    · intro m hmem hwave
      exact (Discovery.mem_newNames_iff.1 hwave).2.1 (hrequested m hmem)
    · intro name hname
      rcases hl.roots_known name hname with hc | ⟨m, hmem, he⟩
      · exact Or.inl hc
      · exact Or.inr ⟨m, List.mem_append_left _ hmem, he⟩

/-- A batch stays lawful when the manifests it waits for are there, and it has its roots then. -/
theorem Lawful.advance
    {next : Batch}
    {manifests : List Manifest}
    (h : b.Lawful answer c)
    (hm : List.Forall₂ (fun identifier m => answer identifier = .ok m) b.wave manifests)
    (hnext : b.advance c manifests = .ok next) :
    next.Lawful answer c ∧ ∃ d, next.discovery = some d := by
  cases hd : b.discovery with
  | none =>
      rw [advance_none hd] at hnext
      cases hnext
      exact ⟨h.discoverRoots hd hm, _, rfl⟩
  | some d =>
      obtain ⟨hnames, rfl⟩ := (advance_some hm.length_eq hd).1 hnext
      exact ⟨h.discoverDependencies hd hm hnames, _, rfl⟩

end Lawful

end Batch
end TypeGraph
