import TypeGraph.Proofs.Loading.Alone

/-!
# Overlapping batches

While a batch is on its way others may commit some of the assemblies that it waits for or has found.
Where every identifier is answered with a manifest of that very name, this makes no difference: leaving
out of the batch what is committed by then gives a batch that is on its way alone in the later catalog.

**Results.**
* `Batch.Shadows.start`, `Batch.Shadows.moves`, `Batch.Shadows.fails`: a batch and its shadow go on
  together, and fail together.
* `Batch.Shadows.settle`: when no wave is left both come to the same end.
-/

namespace TypeGraph

/-- Every identifier is answered with a manifest that declares it. -/
def Faithful (answer : String → Except Failure Manifest) : Prop :=
  ∀ identifier m, answer identifier = .ok m → m.name = identifier

/-- A resolver answers faithfully when every manifest that it answers with declares its identifier. -/
theorem Resolver.faithful_settle
    {resolver : Resolver}
    (limit : Option Number)
    (h : ∀ identifier source m, resolver.answer identifier = .source source →
      Manifest.decode source = .ok m → m.name = identifier) :
    Faithful (resolver.settle limit) := by
  intro identifier m hsettle
  obtain ⟨source, hanswer, hdecode⟩ := Resolver.answer_of_settle hsettle
  exact h identifier source m hanswer hdecode

/-- A catalog to which only answers have been added, each with its dependencies. -/
structure Grown (answer : String → Except Failure Manifest) (before c : Catalog) : Prop where
  keeps : before.Within c
  answers : ∀ m ∈ c.assemblies, before.hasAssembly m.name = true ∨ answer m.name = .ok m
  closed : ∀ m ∈ c.assemblies, ∀ name ∈ m.dependencyNames, c.hasAssembly name = true

section Grown

variable {answer : String → Except Failure Manifest} {before c : Catalog}

theorem Grown.answered
    (h : Grown answer before c)
    {name : String}
    (hb : before.hasAssembly name = false)
    (hc : c.hasAssembly name = true) :
    ∃ m, answer name = .ok m := by
  obtain ⟨m, hm, rfl⟩ := Catalog.hasAssembly_iff.1 hc
  rcases h.answers m hm with hold | hans
  · rw [hb] at hold
    cases hold
  · exact ⟨m, hans⟩

/-- What an answer depends on is committed if its name was added. -/
theorem Grown.dependencies
    (h : Grown answer before c)
    {m : Manifest}
    (hb : before.hasAssembly m.name = false)
    (hc : c.hasAssembly m.name = true)
    (hans : answer m.name = .ok m)
    {name : String}
    (hname : name ∈ m.dependencyNames) :
    c.hasAssembly name = true := by
  obtain ⟨n, hn, he⟩ := Catalog.hasAssembly_iff.1 hc
  rcases h.answers n hn with hold | hans'
  · rw [he, hb] at hold
    cases hold
  · rw [he, hans] at hans'
    cases hans'
    exact h.closed m hn name hname

/-- No assembly of a name is committed. -/
def Catalog.lacks (c : Catalog) (name : String) : Bool :=
  !c.hasAssembly name

/-- What a catalog lacks later it lacks before. -/
theorem Catalog.Within.lacks_and
    {later : Catalog}
    (h : c.Within later)
    (name : String) :
    (later.lacks name && c.lacks name) = later.lacks name := by
  unfold Catalog.lacks
  cases hl : later.hasAssembly name with
  | true => rfl
  | false =>
      cases hc : c.hasAssembly name with
      | true =>
          rw [h name hc] at hl
          cases hl
      | false => rfl

/-- Leaving out what is committed by some time leaves out what was committed before. -/
theorem filter_lacks
    {later : Catalog}
    (h : c.Within later)
    (manifests : List Manifest) :
    (manifests.filter fun m => c.lacks m.name).filter (fun m => later.lacks m.name) =
      manifests.filter fun m => later.lacks m.name := by
  rw [List.filter_filter]
  exact List.filter_congr fun m _ => h.lacks_and m.name

/-- Names that are committed later are left out of a new wave as if they had been so before. -/
theorem filter_newNames
    {later : Catalog}
    {requested requested' names names' : List String}
    (hc : c.Within later)
    (hr : ∀ name, later.hasAssembly name = false → (name ∈ requested' ↔ name ∈ requested))
    (hn : names'.filter later.lacks = names.filter later.lacks) :
    Discovery.newNames later requested' names' =
      (Discovery.newNames c requested names).filter later.lacks := by
  have hnew : ∀ (c : Catalog) (requested names : List String),
      Discovery.newNames c requested names =
        ((names.filter c.lacks).filter fun name => !requested.contains name).eraseDups := by
    intro c requested names
    rw [List.filter_filter]
    rfl
  have hlater : ((names.filter c.lacks).filter fun name => !requested.contains name).filter
        later.lacks =
      (names.filter later.lacks).filter fun name => !requested.contains name := by
    simp only [List.filter_filter]
    refine List.filter_congr fun name _ => ?_
    rw [← hc.lacks_and name]
    cases later.lacks name <;> cases c.lacks name <;> simp
  rw [hnew, hnew, filter_eraseDups, hlater, hn]
  refine congrArg List.eraseDups (List.filter_congr fun name hname => ?_)
  have hl : later.hasAssembly name = false := by
    simpa [Catalog.lacks] using (List.mem_filter.1 hname).2
  simp [hr name hl]

/-- Manifests that are committed later add nothing to what is not. -/
theorem filter_dependencies
    {manifests : List Manifest}
    (h : ∀ m ∈ manifests, c.hasAssembly m.name = true → ∀ name ∈ m.dependencyNames,
      c.hasAssembly name = true) :
    ((manifests.filter fun m => c.lacks m.name).flatMap Manifest.dependencyNames).filter c.lacks =
      (manifests.flatMap Manifest.dependencyNames).filter c.lacks := by
  induction manifests with
  | nil => rfl
  | cons m rest ih =>
      have hrest := ih fun n hn => h n (List.mem_cons_of_mem _ hn)
      cases hm : c.hasAssembly m.name with
      | true =>
          have hnone : m.dependencyNames.filter c.lacks = [] := by
            refine List.filter_eq_nil_iff.2 fun name hname => ?_
            simp [Catalog.lacks, h m (by simp) hm name hname]
          rw [List.filter_cons_of_neg (by simp [Catalog.lacks, hm]), List.flatMap_cons,
            List.filter_append, hnone, List.nil_append, hrest]
      | false =>
          rw [List.filter_cons_of_pos (by simp [Catalog.lacks, hm]), List.flatMap_cons,
            List.flatMap_cons, List.filter_append, List.filter_append, hrest]

end Grown

namespace Batch

/-- The batch `b'` is what is left of the batch `b` without what a catalog has. -/
structure Shadows (c : Catalog) (b b' : Batch) : Prop where
  identifiers : b'.identifiers = b.identifiers
  wave : b'.wave = b.wave.filter c.lacks
  waiting : b.discovery = none → b'.discovery = none
  learned : ∀ d, b.discovery = some d → ∃ d', b'.discovery = some d' ∧
    d'.found = d.found.filter (fun m => c.lacks m.name) ∧ d'.rootNames = d.rootNames ∧
    ∀ name, c.hasAssembly name = false → (name ∈ d'.requested ↔ name ∈ d.requested)

section Shadows

variable {answer : String → Except Failure Manifest} {before c later : Catalog} {b b' next : Batch}

theorem Shadows.start
    (hc : c.Within later)
    (identifiers : List String) :
    (Batch.start c identifiers).Shadows later (Batch.start later identifiers) where
  identifiers := rfl
  wave := by
    simp only [Batch.start, firstWave]
    rw [filter_eraseDups, List.filter_filter]
    exact congrArg List.eraseDups (List.filter_congr fun name _ => (hc.lacks_and name).symm)
  waiting _ := rfl
  learned := by
    intro d hd
    simp [Batch.start] at hd

/-- Where every identifier is answered with its own name the roots have the names of the request. -/
theorem rootNames_of_faithful
    {manifests : List Manifest}
    (hn : manifests.map Manifest.name = b.wave) :
    b.rootNames manifests = b.identifiers := by
  have hlookup : ∀ (wave : List String) (name : String),
      ((wave.zip wave).lookup name).getD name = name := by
    intro wave name
    induction wave with
    | nil => rfl
    | cons first rest ih =>
        rw [List.zip_cons_cons, List.lookup_cons]
        by_cases hname : name = first
        · simp [hname]
        · have hname' : (name == first) = false := by simpa using hname
          rw [hname']
          exact ih
  rw [rootNames, hn]
  exact (List.map_congr_left fun name _ => hlookup b.wave name).trans (List.map_id _)

/-- A batch and its shadow go on with the dependencies of what is not committed later. -/
theorem shadows_goOn
    {found found' manifests manifests' : List Manifest}
    {requested requested' rootNames : List String}
    (hc : c.Within later)
    (hi : b'.identifiers = b.identifiers)
    (hfound : found' = found.filter fun m => later.lacks m.name)
    (hr : ∀ name, later.hasAssembly name = false → (name ∈ requested' ↔ name ∈ requested))
    (hm : (manifests'.flatMap Manifest.dependencyNames).filter later.lacks =
      (manifests.flatMap Manifest.dependencyNames).filter later.lacks) :
    (b.goOn c found requested rootNames manifests).Shadows later
      (b'.goOn later found' requested' rootNames manifests') where
  identifiers := hi
  wave := filter_newNames hc hr hm
  waiting hnone := by simp [goOn] at hnone
  learned := by
    rintro d ⟨⟩
    refine ⟨_, rfl, hfound, rfl, ?_⟩
    intro name hname
    rw [List.mem_append, List.mem_append, filter_newNames hc hr hm, List.mem_filter, hr name hname]
    simp [Catalog.lacks, hname]

section Faithful

variable (hf : Faithful answer) (hs : b.Shadows later b')
include hf hs

/-- When a batch is answered its shadow is answered with those manifests that are not committed. -/
theorem Shadows.answered
    {manifests : List Manifest}
    (hans : Answered answer b.wave manifests) :
    manifests.map Manifest.name = b.wave ∧
      (manifests.filter fun m => later.lacks m.name).map Manifest.name = b'.wave ∧
      Answered answer b'.wave (manifests.filter fun m => later.lacks m.name) := by
  have hnames : manifests.map Manifest.name = b.wave :=
    map_name_of_answers hans fun identifier _ m => hf identifier m
  have hnames' : (manifests.filter fun m => later.lacks m.name).map Manifest.name = b'.wave := by
    rw [hs.wave, ← hnames, List.filter_map]
    rfl
  refine ⟨hnames, hnames', ?_⟩
  rw [Answered, ← hnames', List.forall₂_map_left_iff, List.forall₂_same]
  exact fun m hmem => answer_name_of_mem hans hnames (List.mem_filter.1 hmem).1

/-- A batch and its shadow go on together. -/
theorem Shadows.moves
    (hg : Grown answer before later)
    (hw : ∀ name ∈ b.wave, before.hasAssembly name = false)
    (hc : c.Within later)
    (hn : b.wave.Nodup)
    (hm : b.Moves answer c next) :
    ∃ next', b'.Moves answer later next' ∧ next.Shadows later next' := by
  obtain ⟨manifests, hans, ha⟩ := hm
  obtain ⟨hnames, hnames', hans'⟩ := hs.answered hf hans
  have hself := filter_lacks (fun _ hname => hname : later.Within later) manifests
  have hkept := filter_lacks hc manifests
  -- what is committed later was answered in the same way, so its dependencies are committed too
  have hdeps : ∀ m ∈ manifests, later.hasAssembly m.name = true → ∀ name ∈ m.dependencyNames,
      later.hasAssembly name = true := by
    intro m hmem hl name hname
    have hwave : m.name ∈ b.wave := hnames ▸ List.mem_map_of_mem hmem
    exact hg.dependencies (hw _ hwave) hl (answer_name_of_mem hans hnames hmem) hname
  cases hd : b.discovery with
  | none =>
      rw [advance_none hd] at ha
      cases ha
      have hroots : Discovery.foundRoots c [] manifests =
          manifests.filter fun m => c.lacks m.name :=
        Discovery.foundRoots_of_nodup (by rwa [List.nil_append, hnames])
      have hroots' : Discovery.foundRoots later [] (manifests.filter fun m => later.lacks m.name) =
          manifests.filter fun m => later.lacks m.name := by
        have hn' := hn.sublist (hs.wave ▸ List.filter_sublist)
        rw [Discovery.foundRoots_of_nodup (by rwa [List.nil_append, hnames'])]
        exact hself
      refine ⟨_, ⟨_, hans', advance_none (hs.waiting hd)⟩, ?_⟩
      rw [rootNames_of_faithful hnames, rootNames_of_faithful hnames', hs.identifiers, hroots,
        hroots']
      refine shadows_goOn hc hs.identifiers hkept.symm ?_ ?_
      · intro name hname
        rw [← hkept]
        simp only [List.mem_map, List.mem_filter]
        constructor
        · rintro ⟨m, ⟨hmem, -⟩, he⟩
          exact ⟨m, hmem, he⟩
        · rintro ⟨m, hmem, rfl⟩
          exact ⟨m, ⟨hmem, by simp [Catalog.lacks, hname]⟩, rfl⟩
      · rw [← hkept]
        exact filter_dependencies fun m hmem => hdeps m (List.mem_filter.1 hmem).1
  | some d =>
      obtain ⟨-, rfl⟩ := (advance_some hans.length_eq hd).1 ha
      obtain ⟨d', hd', hfound, hroots, hrequested⟩ := hs.learned d hd
      refine ⟨_, ⟨_, hans', (advance_some hans'.length_eq hd').2 ⟨hnames', rfl⟩⟩, ?_⟩
      rw [hroots]
      refine shadows_goOn hc hs.identifiers ?_ hrequested (filter_dependencies hdeps)
      rw [List.filter_append, hfound]
      exact congrArg _ (hself.trans hkept.symm)

/-- A batch and its shadow fail together. -/
theorem Shadows.fails
    {failure : Failure}
    (hg : Grown answer before later)
    (hw : ∀ name ∈ b.wave, before.hasAssembly name = false)
    (hb : b.Fails answer c failure) :
    b'.Fails answer later failure := by
  rcases hb with ⟨identifier, hi, hfail⟩ | ⟨manifests, hans, ha⟩
  · -- what is committed later was answered, so what has failed is left in the shadow
    have hlacks : later.hasAssembly identifier = false := by
      cases hl : later.hasAssembly identifier with
      | false => rfl
      | true =>
          obtain ⟨m, hm⟩ := hg.answered (hw identifier hi) hl
          rw [hfail] at hm
          cases hm
    refine Or.inl ⟨identifier, ?_, hfail⟩
    rw [hs.wave]
    exact List.mem_filter.2 ⟨hi, by simp [Catalog.lacks, hlacks]⟩
  · -- a wave that is answered does not fail, for each answer declares its name
    cases hd : b.discovery with
    | none =>
        rw [advance_none hd] at ha
        cases ha
    | some d =>
        have hnames := map_name_of_answers hans fun identifier _ m => hf identifier m
        rw [(advance_some hans.length_eq hd).2 ⟨hnames, rfl⟩] at ha
        cases ha

end Faithful

/-- When no wave is left a batch and its shadow in the registry of that time come to the same end. -/
theorem Shadows.settle
    {r : TypeRegistry}
    {d : Discovery}
    (hs : b.Shadows r.catalog b')
    (hw : b.wave = [])
    (hd : b.discovery = some d) :
    b'.wave = [] ∧ ∃ d', b'.discovery = some d' ∧ Run.settle r d' = Run.settle r d := by
  obtain ⟨d', hd', hfound, hroots, -⟩ := hs.learned d hd
  refine ⟨by rw [hs.wave, hw]; rfl, d', hd', ?_⟩
  have hfresh : d'.fresh r.catalog = d.fresh r.catalog := by
    rw [Discovery.fresh, hfound]
    exact filter_lacks (fun _ hname => hname) d.found
  unfold Run.settle
  rw [Discovery.link_congr hfresh, hroots]

end Shadows
end Batch
end TypeGraph
