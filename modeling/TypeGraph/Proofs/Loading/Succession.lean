import TypeGraph.Proofs.Loading.Turn

/-!
# How one wave of a load follows another

The waves of a load that runs alone, told by what has been taken and what has been requested: the first
one are the identifiers that are not committed, and each later one the dependencies of the manifests that
are taken from the wave before it, as far as they are neither committed, nor taken, nor requested.  A
batch that runs alone waits for these waves, one after the other, for as long as they are answered.

**Results.**
* `Discovery.foundRoots_eq`: which manifests are taken from the first wave.
* `WaveAt.unique`, `WaveAt.wave_spec`, `WaveAt.not_mem_later`: what a wave asks for.
* `Batch.AtWave.moves`, `Batch.AtWave.exists_moves`: a batch goes on from wave to wave, where there is a
  next one.
-/

namespace TypeGraph

/-- The manifests that are taken from a wave: those whose names are not committed, the first of each
name. -/
def takenFrom (c : Catalog) (manifests : List Manifest) : List Manifest :=
  (manifests.filter fun m => !c.hasAssembly m.name).eraseDupsBy fun m n => m.name == n.name

/-- The dependencies of some manifests that are neither committed, nor the names of manifests that are
taken, nor requested, each once and in the order in which they are declared. -/
def newDependencies (c : Catalog) (taken : List Manifest) (requested : List String)
    (manifests : List Manifest) : List String :=
  ((manifests.flatMap Manifest.dependencyNames).filter fun name =>
    c.hasAssembly name = false ∧ name ∉ taken.map Manifest.name ∧ name ∉ requested).eraseDups

/-- The waves of a load of some roots by number, each with the manifests that are taken from the waves
before it and the dependencies that are requested with it and before it.  A wave follows another one
whose identifiers are all answered, by manifests of their names if they are dependencies. -/
inductive WaveAt (answer : String → Except Failure Manifest) (c : Catalog)
    (identifiers : List String) : Nat → List String → List Manifest → List String → Prop
  | roots :
      WaveAt answer c identifiers 0
        (identifiers.filter fun identifier => !c.hasAssembly identifier).eraseDups [] []
  | next {k : Nat} {wave requested : List String} {taken manifests : List Manifest} :
      WaveAt answer c identifiers k wave taken requested →
      List.Forall₂ (fun identifier m => answer identifier = .ok m) wave manifests →
      (k ≠ 0 → manifests.map Manifest.name = wave) →
      WaveAt answer c identifiers (k + 1)
        (newDependencies c (taken ++ takenFrom c manifests) requested (takenFrom c manifests))
        (taken ++ takenFrom c manifests)
        (requested ++
          newDependencies c (taken ++ takenFrom c manifests) requested (takenFrom c manifests))

section Taken

variable {c : Catalog} {manifests taken : List Manifest} {requested : List String}

/-- The manifests that a batch finds among its roots are those that are taken from them. -/
theorem Discovery.foundRoots_eq_append
    (found : List Manifest) :
    Discovery.foundRoots c found manifests =
      found ++ takenFrom c (manifests.filter fun m => !Discovery.hasFound found m.name) := by
  induction manifests generalizing found with
  | nil => simp [foundRoots, takenFrom]
  | cons m rest ih =>
      by_cases hfound : hasFound found m.name = true
      · rw [foundRoots, if_pos (by simp [hfound]), ih, List.filter_cons_of_neg (by simp [hfound])]
      · by_cases hc : c.hasAssembly m.name = true
        · rw [foundRoots, if_pos (by simp [hc]), ih, List.filter_cons_of_pos (by simp [hfound])]
          rw [takenFrom, takenFrom, List.filter_cons_of_neg (by simp [hc])]
        · rw [foundRoots, if_neg (by simp [hfound, hc]), ih,
            List.filter_cons_of_pos (by simp [hfound]), takenFrom, takenFrom,
            List.filter_cons_of_pos (by simp [hc]), List.eraseDupsBy_cons, List.append_assoc,
            List.singleton_append]
          congr 3
          rw [List.filter_filter, List.filter_filter, List.filter_filter]
          refine List.filter_congr fun n _ => ?_
          by_cases hn : n.name = m.name
          · simp [hasFound, hn]
          · have hsym : (m.name == n.name) = false := beq_false_of_ne fun he => hn he.symm
            simp [hasFound, hn, hsym]

theorem Discovery.foundRoots_eq :
    Discovery.foundRoots c [] manifests = takenFrom c manifests := by
  have hall : manifests.filter (fun m => !Discovery.hasFound [] m.name) = manifests := by
    simp [Discovery.hasFound]
  rw [foundRoots_eq_append, hall, List.nil_append]

/-- Manifests of different names that are not committed are all taken. -/
theorem takenFrom_of_nodup
    (hn : (manifests.map Manifest.name).Nodup)
    (hc : ∀ m ∈ manifests, c.hasAssembly m.name = false) :
    takenFrom c manifests = manifests := by
  rw [← Discovery.foundRoots_eq, Discovery.foundRoots_of_nodup (by simpa using hn),
    List.nil_append, List.filter_eq_self]
  exact fun m hm => by simp [hc m hm]

/-- A manifest whose name is not committed is taken, or another one of its name is. -/
theorem exists_taken
    {m : Manifest}
    (hm : m ∈ manifests)
    (hc : c.hasAssembly m.name = false) :
    ∃ n ∈ takenFrom c manifests, n.name = m.name := by
  rw [← Discovery.foundRoots_eq]
  exact (Batch.exists_foundRoots hm).resolve_left (by simp [hc])

theorem mem_newDependencies_iff
    {name : String} :
    name ∈ newDependencies c taken requested manifests ↔
      name ∈ manifests.flatMap Manifest.dependencyNames ∧ c.hasAssembly name = false ∧
        name ∉ taken.map Manifest.name ∧ name ∉ requested := by
  simp [newDependencies]

/-- What a batch counts as requested are the names that are taken and the dependencies that are
requested. -/
theorem newNames_eq
    {known : List String}
    (h : ∀ name, name ∈ known ↔ name ∈ taken.map Manifest.name ∨ name ∈ requested) :
    Discovery.newNames c known (manifests.flatMap Manifest.dependencyNames) =
      newDependencies c taken requested manifests := by
  unfold Discovery.newNames newDependencies
  refine congrArg List.eraseDups (List.filter_congr fun name _ => ?_)
  rw [Bool.eq_iff_iff, decide_eq_true_iff]
  simp only [List.contains_eq_mem, Bool.and_eq_true, Bool.not_eq_true', decide_eq_false_iff_not, h,
    not_or]
  tauto

end Taken

section WaveAt

variable {answer : String → Except Failure Manifest} {c : Catalog} {identifiers : List String}
  {k : Nat} {wave requested : List String} {taken : List Manifest}

/-- There is one wave of each number at most. -/
theorem WaveAt.unique
    (h : WaveAt answer c identifiers k wave taken requested)
    {wave' requested' : List String}
    {taken' : List Manifest}
    (h' : WaveAt answer c identifiers k wave' taken' requested') :
    wave = wave' ∧ taken = taken' ∧ requested = requested' := by
  induction h generalizing wave' taken' requested' with
  | roots =>
      cases h'
      exact ⟨rfl, rfl, rfl⟩
  | next _ hanswers _ ih =>
      cases h' with
      | next hbefore hanswers' _ =>
          obtain ⟨rfl, rfl, rfl⟩ := ih hbefore
          have hsame := (mapM_eq_ok_iff.2 hanswers).symm.trans (mapM_eq_ok_iff.2 hanswers')
          cases hsame
          exact ⟨rfl, rfl, rfl⟩

/-- A wave asks for nothing twice and for nothing that is committed; after the first one it consists of
requested dependencies that are not taken. -/
theorem WaveAt.wave_spec
    (h : WaveAt answer c identifiers k wave taken requested) :
    wave.Nodup ∧ (∀ name ∈ wave, c.hasAssembly name = false) ∧
      (k ≠ 0 → wave ⊆ requested ∧ ∀ name ∈ wave, name ∉ taken.map Manifest.name) := by
  cases h with
  | roots => exact ⟨nodup_eraseDups _, by simp, by simp⟩
  | next =>
      refine ⟨nodup_eraseDups _, fun name hname => (mem_newDependencies_iff.1 hname).2.1, fun _ => ?_⟩
      exact ⟨List.subset_append_right _ _, fun name hname => (mem_newDependencies_iff.1 hname).2.2.1⟩

/-- What is requested stays requested. -/
theorem WaveAt.subset_requested
    {j : Nat}
    {earlier before : List String}
    {known : List Manifest}
    (hj : WaveAt answer c identifiers j earlier known before)
    (hpos : j ≠ 0)
    (h : WaveAt answer c identifiers k wave taken requested)
    (hjk : j ≤ k) :
    earlier ⊆ requested := by
  induction h with
  | roots => omega
  | @next k _ _ _ _ hbefore hanswers hnames ih =>
      by_cases hlast : j = k + 1
      · subst hlast
        have hnext := WaveAt.next hbefore hanswers hnames
        obtain ⟨rfl, -, -⟩ := hj.unique hnext
        exact List.subset_append_right _ _
      · exact List.Subset.trans (ih (by omega)) (List.subset_append_left _ _)

/-- What is requested as a dependency is in no later wave. -/
theorem WaveAt.not_mem_later
    {j : Nat}
    {earlier before : List String}
    {known : List Manifest}
    (hj : WaveAt answer c identifiers j earlier known before)
    (hpos : j ≠ 0)
    (h : WaveAt answer c identifiers k wave taken requested)
    (hjk : j < k)
    {name : String}
    (hname : name ∈ earlier) :
    name ∉ wave := by
  cases h with
  | roots => omega
  | next hbefore _ _ =>
      intro hwave
      have hrequested := hj.subset_requested hpos hbefore (by omega) hname
      exact (mem_newDependencies_iff.1 hwave).2.2.2 hrequested

/-- After the first wave each of its identifiers is answered, and the name of its manifest is committed
or taken. -/
theorem WaveAt.exists_root
    (h : WaveAt answer c identifiers k wave taken requested)
    (hpos : k ≠ 0)
    {identifier : String}
    (hi : identifier ∈ identifiers)
    (hnew : c.hasAssembly identifier = false) :
    ∃ m, answer identifier = .ok m ∧
      (c.hasAssembly m.name = true ∨ m.name ∈ taken.map Manifest.name) := by
  induction h with
  | roots => exact absurd rfl hpos
  | @next k _ _ _ manifests hbefore hanswers _ ih =>
      cases k with
      | zero =>
          cases hbefore
          obtain ⟨m, hm, hans⟩ := exists_result_of_mem (mapM_eq_ok_iff.2 hanswers)
            (List.mem_eraseDups.2 (List.mem_filter.2 ⟨hi, by simp [hnew]⟩))
          refine ⟨m, hans, ?_⟩
          cases hc : c.hasAssembly m.name with
          | true => exact Or.inl rfl
          | false =>
              obtain ⟨n, hn, he⟩ := exists_taken hm hc
              exact Or.inr (List.mem_map.2 ⟨n, by simpa using hn, he⟩)
      | succ k =>
          obtain ⟨m, hans, hm⟩ := ih (by omega)
          refine ⟨m, hans, hm.imp_right fun htaken => ?_⟩
          rw [List.map_append]
          exact List.mem_append_left _ htaken

/-- A dependency that was requested as a root was answered with a manifest of another name. -/
theorem WaveAt.exists_other_name
    (h : WaveAt answer c identifiers k wave taken requested)
    (hpos : k ≠ 0)
    {name : String}
    (hname : name ∈ wave)
    (hi : name ∈ identifiers) :
    ∃ m, answer name = .ok m ∧ m.name ≠ name := by
  obtain ⟨-, hnew, hlater⟩ := h.wave_spec
  obtain ⟨m, hans, hm⟩ := h.exists_root hpos hi (hnew name hname)
  refine ⟨m, hans, fun he => ?_⟩
  rw [he, hnew name hname] at hm
  exact (hlater hpos).2 name hname (hm.resolve_left (by simp))

end WaveAt

/-- A batch waits for the wave with a number. -/
inductive Batch.AtWave (answer : String → Except Failure Manifest) (c : Catalog)
    (identifiers : List String) : Nat → Batch → Prop
  | roots {b : Batch} :
      b.discovery = none →
      WaveAt answer c identifiers 0 b.wave [] [] →
      AtWave answer c identifiers 0 b
  | later {k : Nat} {b : Batch} {d : Discovery} {taken : List Manifest} {requested : List String} :
      b.discovery = some d →
      WaveAt answer c identifiers (k + 1) b.wave taken requested →
      (∀ name, name ∈ d.requested ↔ name ∈ taken.map Manifest.name ∨ name ∈ requested) →
      AtWave answer c identifiers (k + 1) b

namespace Batch

section AtWave

variable {answer : String → Except Failure Manifest} {c : Catalog} {identifiers : List String}
  {k : Nat} {b next : Batch}

theorem AtWave.exists_wave
    (h : b.AtWave answer c identifiers k) :
    ∃ taken requested, WaveAt answer c identifiers k b.wave taken requested := by
  cases h with
  | roots _ hwave => exact ⟨_, _, hwave⟩
  | later _ hwave _ => exact ⟨_, _, hwave⟩

/-- A batch goes on from wave to wave. -/
theorem AtWave.moves
    (h : b.AtWave answer c identifiers k)
    (hm : b.Moves answer c next) :
    next.AtWave answer c identifiers (k + 1) := by
  obtain ⟨manifests, hanswers, hadvance⟩ := hm
  cases h with
  | roots hd hwave =>
      rw [advance_none hd, Discovery.foundRoots_eq] at hadvance
      cases hadvance
      have hnext := WaveAt.next hwave hanswers (by simp)
      have hknown : ∀ name, name ∈ (takenFrom c manifests).map Manifest.name ↔
          name ∈ ([] ++ takenFrom c manifests).map Manifest.name ∨ name ∈ [] := by simp
      rw [← newNames_eq hknown] at hnext
      exact .later rfl hnext (by simp)
  | @later k _ d taken requested hd hwave hknown =>
      obtain ⟨hnames, rfl⟩ := (advance_some hanswers.length_eq hd).1 hadvance
      obtain ⟨hnodup, hnew, hlater⟩ := hwave.wave_spec
      have htaken : takenFrom c manifests = manifests := by
        refine takenFrom_of_nodup (hnames ▸ hnodup) fun m hm => hnew m.name ?_
        rw [← hnames]
        exact List.mem_map_of_mem hm
      have hnext := WaveAt.next hwave hanswers fun _ => hnames
      rw [htaken] at hnext
      -- the names of the wave are requested already, so taking its manifests adds no name
      have hknown' : ∀ name, name ∈ d.requested ↔
          name ∈ (taken ++ manifests).map Manifest.name ∨ name ∈ requested := by
        intro name
        rw [hknown, List.map_append, hnames, List.mem_append]
        have hsub : name ∈ b.wave → name ∈ requested := fun hn => (hlater (by omega)).1 hn
        tauto
      rw [← newNames_eq hknown'] at hnext
      refine .later rfl hnext fun name => ?_
      simp only [List.mem_append, hknown' name]
      tauto

/-- A batch goes on where there is a next wave. -/
theorem AtWave.exists_moves
    (h : b.AtWave answer c identifiers k)
    {wave requested : List String}
    {taken : List Manifest}
    (hnext : WaveAt answer c identifiers (k + 1) wave taken requested) :
    ∃ next, b.Moves answer c next ∧ next.wave = wave := by
  have hmoves : ∃ next, b.Moves answer c next := by
    cases hnext with
    | next hbefore hanswers hnames =>
        cases h with
        | roots hd hwave =>
            obtain ⟨rfl, -, -⟩ := hwave.unique hbefore
            exact ⟨_, _, hanswers, advance_none hd⟩
        | later hd hwave hknown =>
            obtain ⟨rfl, -, -⟩ := hwave.unique hbefore
            exact ⟨_, _, hanswers,
              (advance_some hanswers.length_eq hd).2 ⟨hnames (by omega), rfl⟩⟩
  obtain ⟨next, hm⟩ := hmoves
  obtain ⟨_, _, hwave⟩ := (h.moves hm).exists_wave
  exact ⟨next, hm, (hwave.unique hnext).1⟩

end AtWave
end Batch

end TypeGraph
