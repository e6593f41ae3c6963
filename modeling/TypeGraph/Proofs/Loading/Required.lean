import TypeGraph.Proofs.Loading.Alone

/-!
# What a request requires

The assemblies that a request for some roots adds to a catalog, without waves: the roots that are not
committed, the first of each name, and again and again what they depend on.  A batch that is loaded
alone finds exactly these.

**Results.**
* `OnWay.exact`: what a batch on its way alone has found and still asks for.
* `Discovery.Exact.mem_found_iff`: when no wave is left it has found what is required.
* `OnWay.moves`: it goes on as long as everything that is required is answered.
-/

namespace TypeGraph

section Required

variable (answer : String → Except Failure Manifest) (c : Catalog) (identifiers : List String)

/-- The manifest of an identifier, if it declares a name. -/
def answerNamed (name identifier : String) : Option Manifest :=
  match answer identifier with
  | .ok m => if m.name = name then some m else none
  | .error _ => none

/-- The first of the root manifests that declares a name. -/
def rootNamed (name : String) : Option Manifest :=
  identifiers.findSome? fun identifier =>
    if c.hasAssembly identifier then none else answerNamed answer name identifier

/-- A manifest is the first root of a name that is not committed. -/
def NewRoot (m : Manifest) : Prop :=
  c.hasAssembly m.name = false ∧ rootNamed answer c identifiers m.name = some m

/-- An assembly that a request adds: a root, or what a name stands for that an added assembly depends
on and that is neither committed nor the name of a root. -/
inductive Required : Manifest → Prop
  | root {m : Manifest} :
      NewRoot answer c identifiers m →
      Required m
  | dependency {n m : Manifest} :
      Required n →
      m.name ∈ n.dependencyNames →
      c.hasAssembly m.name = false →
      rootNamed answer c identifiers m.name = none →
      answer m.name = .ok m →
      Required m

/-- The name of a root: its identifier if that is committed, or else the name that its manifest
declares. -/
def RootName (identifier name : String) : Prop :=
  (c.hasAssembly identifier = true ∧ name = identifier) ∨
    c.hasAssembly identifier = false ∧ ∃ m, answer identifier = .ok m ∧ name = m.name

end Required

section Required

variable {answer : String → Except Failure Manifest} {c : Catalog} {identifiers : List String}

theorem Required.new
    {m : Manifest}
    (h : Required answer c identifiers m) :
    c.hasAssembly m.name = false := by
  cases h with
  | root hroot => exact hroot.1
  | dependency _ _ hc _ _ => exact hc

theorem name_of_rootNamed
    {name : String}
    {m : Manifest}
    (h : rootNamed answer c identifiers name = some m) :
    m.name = name := by
  obtain ⟨before, identifier, after, -, hf, -⟩ := List.findSome?_eq_some_iff.1 h
  unfold answerNamed at hf
  split at hf
  · simp at hf
  · split at hf
    · split at hf
      · cases hf
        assumption
      · simp at hf
    · simp at hf

/-- There is one required assembly of a name. -/
theorem Required.unique
    {m n : Manifest}
    (hm : Required answer c identifiers m)
    (hn : Required answer c identifiers n)
    (he : m.name = n.name) :
    m = n := by
  cases hm with
  | root hm =>
      have hroot := hm.2
      rw [he] at hroot
      cases hn with
      | root hn =>
          rw [hn.2] at hroot
          cases hroot
          rfl
      | dependency _ _ _ hnone _ =>
          rw [hnone] at hroot
          cases hroot
  | dependency _ _ _ hnone hans =>
      rw [he] at hnone hans
      cases hn with
      | root hn =>
          rw [hn.2] at hnone
          cases hnone
      | dependency _ _ _ _ hans' =>
          rw [hans'] at hans
          cases hans
          rfl

/-- The first root of a name among the manifests of the first wave. -/
theorem find?_eq_rootNamed
    {manifests : List Manifest}
    (h : List.Forall₂ (fun identifier m => answer identifier = .ok m)
      (Batch.firstWave c identifiers) manifests)
    (name : String) :
    (manifests.find? fun m => m.name == name) = rootNamed answer c identifiers name := by
  have hwave : ∀ {wave : List String} {manifests : List Manifest},
      List.Forall₂ (fun identifier m => answer identifier = .ok m) wave manifests →
      (manifests.find? fun m => m.name == name) = wave.findSome? (answerNamed answer name) := by
    intro wave manifests h
    induction h with
    | nil => rfl
    | @cons identifier m rest rest' hfirst _ ih =>
        rw [List.findSome?_cons, List.find?_cons, ih]
        by_cases hm : m.name = name
        · simp [answerNamed, hfirst, hm]
        · have hm' : (m.name == name) = false := by simpa using hm
          simp [answerNamed, hfirst, hm, hm']
  rw [hwave h, Batch.firstWave, findSome?_eraseDups]
  unfold rootNamed
  clear h hwave
  induction identifiers with
  | nil => rfl
  | cons identifier rest ih =>
      rw [List.findSome?_cons, ← ih]
      cases hc : c.hasAssembly identifier with
      | true => rw [List.filter_cons_of_neg (by simp [hc]), if_pos rfl]
      | false => rw [List.filter_cons_of_pos (by simp [hc]), List.findSome?_cons, if_neg (by simp)]

end Required

/-- What a batch that is loaded alone has learned, while it waits for a wave. -/
structure Discovery.Exact (answer : String → Except Failure Manifest) (c : Catalog)
    (identifiers wave : List String) (d : Discovery) : Prop where
  required : ∀ m ∈ d.found, Required answer c identifiers m
  roots_found : ∀ m, NewRoot answer c identifiers m → m ∈ d.found
  requests : ∀ m ∈ d.found, ∀ name ∈ m.dependencyNames,
    c.hasAssembly name = true ∨ name ∈ d.requested
  accounted : ∀ name ∈ d.requested, name ∈ wave ∨ ∃ m ∈ d.found, m.name = name
  needed : ∀ name ∈ wave, c.hasAssembly name = false ∧ ∃ m ∈ d.found, name ∈ m.dependencyNames
  roots_answered : ∀ identifier ∈ identifiers, c.hasAssembly identifier = false →
    ∃ m, answer identifier = .ok m
  named : List.Forall₂ (RootName answer c) identifiers d.rootNames

section Exact

variable {answer : String → Except Failure Manifest} {c : Catalog} {identifiers : List String}

theorem mem_requested_or_new
    {requested : List String}
    {manifests : List Manifest}
    {m : Manifest}
    (hm : m ∈ manifests)
    {name : String}
    (hname : name ∈ m.dependencyNames) :
    c.hasAssembly name = true ∨
      name ∈ requested ++
        Discovery.newNames c requested (manifests.flatMap Manifest.dependencyNames) := by
  by_cases hr : name ∈ requested
  · exact Or.inr (List.mem_append_left _ hr)
  · cases hc : c.hasAssembly name with
    | true => exact Or.inl rfl
    | false =>
        refine Or.inr (List.mem_append_right _ (Discovery.mem_newNames_iff.2 ⟨?_, hr, hc⟩))
        exact List.mem_flatMap.2 ⟨m, hm, hname⟩

theorem needed_of_new
    {requested : List String}
    {manifests : List Manifest}
    {name : String}
    (h : name ∈ Discovery.newNames c requested (manifests.flatMap Manifest.dependencyNames)) :
    c.hasAssembly name = false ∧ ∃ m ∈ manifests, name ∈ m.dependencyNames := by
  obtain ⟨hmem, -, hc⟩ := Discovery.mem_newNames_iff.1 h
  exact ⟨hc, List.mem_flatMap.1 hmem⟩

/-- When the manifests of the roots are there, the names of the roots are known. -/
theorem Batch.forall_rootName
    {b : Batch}
    {manifests : List Manifest}
    (hw : b.wave = firstWave c b.identifiers)
    (hm : List.Forall₂ (fun identifier m => answer identifier = .ok m) b.wave manifests) :
    List.Forall₂ (RootName answer c) b.identifiers (b.rootNames manifests) := by
  rw [rootNames, List.forall₂_map_right_iff, List.forall₂_same]
  intro identifier hid
  rcases lookup_zip_names hm identifier with ⟨hnew, hnone⟩ | ⟨hwave, m, -, hans, hsome⟩
  · rw [hnone]
    refine Or.inl ⟨?_, rfl⟩
    rw [hw, mem_firstWave_iff, not_and] at hnew
    simpa using hnew hid
  · rw [hsome]
    rw [hw, mem_firstWave_iff] at hwave
    exact Or.inr ⟨hwave.2, m, hans, rfl⟩

/-- What has been learned is exact when the manifests of the roots are there. -/
theorem exact_roots
    {b : Batch}
    {manifests : List Manifest}
    (hi : b.identifiers = identifiers)
    (hw : b.wave = Batch.firstWave c identifiers)
    (hm : List.Forall₂ (fun identifier m => answer identifier = .ok m) b.wave manifests) :
    Discovery.Exact answer c identifiers
      (Discovery.newNames c ((Discovery.foundRoots c [] manifests).map Manifest.name)
        ((Discovery.foundRoots c [] manifests).flatMap Manifest.dependencyNames))
      ⟨Discovery.foundRoots c [] manifests,
        (Discovery.foundRoots c [] manifests).map Manifest.name ++
          Discovery.newNames c ((Discovery.foundRoots c [] manifests).map Manifest.name)
            ((Discovery.foundRoots c [] manifests).flatMap Manifest.dependencyNames),
        b.rootNames manifests⟩ := by
  have hm' := hm
  rw [hw] at hm'
  have hfound : ∀ m, m ∈ Discovery.foundRoots c [] manifests ↔ NewRoot answer c identifiers m := by
    intro m
    rw [Discovery.mem_foundRoots_iff, find?_eq_rootNamed hm']
    simp [Discovery.hasFound, NewRoot]
  refine ⟨?_, ?_, ?_, ?_, ?_, ?_, ?_⟩
  · exact fun m hmem => Required.root ((hfound m).1 hmem)
  · exact fun m hroot => (hfound m).2 hroot
  · exact fun m hmem name hname => mem_requested_or_new hmem hname
  · intro name hname
    rcases List.mem_append.1 hname with hname | hname
    · exact Or.inr (List.mem_map.1 hname)
    · exact Or.inl hname
  · exact fun name hname => needed_of_new hname
  · intro identifier hid hc
    have hwave := Batch.mem_firstWave_iff.2 ⟨hid, hc⟩
    obtain ⟨m, -, hans⟩ := exists_result_of_mem (mapM_eq_ok_iff.2 hm') hwave
    exact ⟨m, hans⟩
  · rw [← hi] at hw ⊢
    exact Batch.forall_rootName hw hm

/-- A name that a batch waits for is not the name of a root. -/
theorem Discovery.Exact.rootNamed_eq_none
    {d : Discovery}
    {wave : List String}
    (h : d.Exact answer c identifiers wave)
    (hl : d.Lawful answer c wave)
    {name : String}
    (hname : name ∈ wave) :
    rootNamed answer c identifiers name = none := by
  cases hr : rootNamed answer c identifiers name with
  | none => rfl
  | some m =>
      have he := name_of_rootNamed hr
      subst he
      have hroot : NewRoot answer c identifiers m := ⟨(h.needed _ hname).1, hr⟩
      exact absurd hname (hl.wave_new m (h.roots_found m hroot))

/-- What has been learned stays exact when a wave of dependencies is there. -/
theorem Discovery.Exact.dependencies
    {d : Discovery}
    {wave : List String}
    {manifests : List Manifest}
    (h : d.Exact answer c identifiers wave)
    (hl : d.Lawful answer c wave)
    (hm : List.Forall₂ (fun identifier m => answer identifier = .ok m) wave manifests)
    (hnames : manifests.map Manifest.name = wave) :
    Discovery.Exact answer c identifiers
      (Discovery.newNames c d.requested (manifests.flatMap Manifest.dependencyNames))
      ⟨d.found ++ manifests.filter fun m => !c.hasAssembly m.name,
        d.requested ++
          Discovery.newNames c d.requested (manifests.flatMap Manifest.dependencyNames),
        d.rootNames⟩ := by
  have hwave : ∀ m ∈ manifests, m.name ∈ wave := by
    intro m hmem
    rw [← hnames]
    exact List.mem_map_of_mem hmem
  have hkept : (manifests.filter fun m => !c.hasAssembly m.name) = manifests := by
    refine List.filter_eq_self.2 fun m hmem => ?_
    simp [(h.needed _ (hwave m hmem)).1]
  rw [hkept]
  refine ⟨?_, ?_, ?_, ?_, ?_, h.roots_answered, h.named⟩
  · intro m hmem
    rcases List.mem_append.1 hmem with hmem | hmem
    · exact h.required m hmem
    · obtain ⟨hc, n, hn, hdep⟩ := h.needed _ (hwave m hmem)
      exact Required.dependency (h.required n hn) hdep hc
        (h.rootNamed_eq_none hl (hwave m hmem)) (Batch.answer_name_of_mem hm hnames hmem)
  · exact fun m hroot => List.mem_append_left _ (h.roots_found m hroot)
  · intro m hmem name hname
    rcases List.mem_append.1 hmem with hmem | hmem
    · exact (h.requests m hmem name hname).imp_right (List.mem_append_left _)
    · exact mem_requested_or_new hmem hname
  · intro name hname
    rcases List.mem_append.1 hname with hname | hname
    · refine Or.inr ?_
      rcases h.accounted name hname with hw | ⟨m, hmem, he⟩
      · rw [← hnames] at hw
        obtain ⟨m, hmem, he⟩ := List.mem_map.1 hw
        exact ⟨m, List.mem_append_right _ hmem, he⟩
      · exact ⟨m, List.mem_append_left _ hmem, he⟩
    · exact Or.inl hname
  · intro name hname
    obtain ⟨hc, m, hmem, hdep⟩ := needed_of_new hname
    exact ⟨hc, m, List.mem_append_right _ hmem, hdep⟩

/-- When no wave is left a batch has found what is required. -/
theorem Discovery.Exact.mem_found_iff
    {d : Discovery}
    (h : d.Exact answer c identifiers [])
    {m : Manifest} :
    m ∈ d.found ↔ Required answer c identifiers m := by
  refine ⟨h.required m, fun hr => ?_⟩
  induction hr with
  | root hroot => exact h.roots_found _ hroot
  | @dependency n m hn hdep hc hnone hans ih =>
      have hrequested := (h.requests n ih m.name hdep).resolve_left (by simp [hc])
      obtain ⟨m', hm', he⟩ := (h.accounted m.name hrequested).resolve_left (by simp)
      have hm := Required.dependency hn hdep hc hnone hans
      rwa [(h.required m' hm').unique hm he] at hm'

end Exact

section OnWay

variable {resolver : Resolver} {limit : Option Number} {c : Catalog} {identifiers : List String}
  {b : Batch}

/-- What a batch on its way alone waits for, and what it has learned. -/
theorem OnWay.exact
    (h : OnWay resolver limit c identifiers b) :
    b.identifiers = identifiers ∧
      (b.discovery = none → b.wave = Batch.firstWave c identifiers) ∧
      ∀ d, b.discovery = some d → d.Exact (resolver.settle limit) c identifiers b.wave := by
  induction h with
  | refl => exact ⟨rfl, fun _ => rfl, fun d hd => by simp [Batch.start] at hd⟩
  | @tail b next hway hm ih =>
      obtain ⟨hi, hfirst, hexact⟩ := ih
      have hl : b.Lawful (resolver.settle limit) c := OnWay.lawful hway
      obtain ⟨manifests, hans, ha⟩ := hm
      cases hd : b.discovery with
      | none =>
          rw [Batch.advance_none hd] at ha
          cases ha
          refine ⟨hi, fun hnone => by simp [Batch.goOn] at hnone, ?_⟩
          rintro d ⟨⟩
          exact exact_roots hi (hfirst hd) hans
      | some d =>
          obtain ⟨hnames, rfl⟩ := (Batch.advance_some hans.length_eq hd).1 ha
          refine ⟨hi, fun hnone => by simp [Batch.goOn] at hnone, ?_⟩
          rintro d' ⟨⟩
          exact (hexact d hd).dependencies (hl.learned d hd) hans hnames

/-- A batch alone goes on as long as its roots are answered, and what it requires is answered with the
right name. -/
theorem OnWay.moves
    (h : OnWay resolver limit c identifiers b)
    (hroots : ∀ identifier ∈ identifiers, c.hasAssembly identifier = false →
      ∃ m, resolver.settle limit identifier = .ok m)
    (hdeps : ∀ n, Required (resolver.settle limit) c identifiers n → ∀ name ∈ n.dependencyNames,
      c.hasAssembly name = false → rootNamed (resolver.settle limit) c identifiers name = none →
        ∃ m, resolver.settle limit name = .ok m ∧ m.name = name) :
    ∃ next, b.Moves (resolver.settle limit) c next := by
  obtain ⟨hi, hfirst, hexact⟩ := h.exact
  cases hd : b.discovery with
  | none =>
      have hall : ∀ identifier ∈ b.wave, ∃ m, resolver.settle limit identifier = .ok m := by
        rw [hfirst hd]
        intro identifier hid
        obtain ⟨hid, hc⟩ := Batch.mem_firstWave_iff.1 hid
        exact hroots identifier hid hc
      obtain ⟨manifests, hm⟩ := exists_results hall
      exact ⟨_, manifests, Batch.answered_iff_mapM.2 hm, Batch.advance_none hd⟩
  | some d =>
      have he := hexact d hd
      have hall : ∀ name ∈ b.wave, ∃ m, resolver.settle limit name = .ok m ∧ m.name = name := by
        intro name hname
        obtain ⟨hc, n, hn, hdep⟩ := he.needed name hname
        exact hdeps n (he.required n hn) name hdep hc
          (he.rootNamed_eq_none (h.lawful.learned d hd) hname)
      obtain ⟨manifests, hm⟩ := exists_results fun name hname =>
        let ⟨m, hans, _⟩ := hall name hname
        ⟨m, hans⟩
      have hans := mapM_eq_ok_iff.1 hm
      have hnames : manifests.map Manifest.name = b.wave := by
        refine Batch.map_name_of_answers hans fun name hname m hm => ?_
        obtain ⟨n, hn, he⟩ := hall name hname
        rw [hn] at hm
        cases hm
        exact he
      exact ⟨_, manifests, hans,
        (Batch.advance_some hans.length_eq hd).2 ⟨hnames, rfl⟩⟩

end OnWay
end TypeGraph
