import TypeGraph.Loading.Run
import TypeGraph.Proofs.Distinct
import TypeGraph.Proofs.Registry.Commit
import TypeGraph.Proofs.Result

/-!
# Waves

What one wave of a batch asks for and what it adds: the names that are neither committed nor
requested before, each once and in the order in which they are first declared; and of the manifests
that are answered those that are not committed.

**Results.**
* `Discovery.nextWave_eq`: the next wave in closed form.
* `Discovery.mem_foundRoots_iff`: of several root manifests of one name the first is found.
* `Discovery.addWave_ok_iff`: a wave of dependencies is added when each declares its name.
-/

namespace TypeGraph

namespace Discovery

/-- Those of some names that are neither requested nor committed, each once. -/
def newNames (c : Catalog) (requested names : List String) : List String :=
  (names.filter fun name => !requested.contains name && !c.hasAssembly name).eraseDups

theorem mem_newNames_iff
    {c : Catalog}
    {requested names : List String}
    {name : String} :
    name ∈ newNames c requested names ↔
      name ∈ names ∧ name ∉ requested ∧ c.hasAssembly name = false := by
  simp [newNames]

theorem newNames_nodup
    (c : Catalog)
    (requested names : List String) :
    (newNames c requested names).Nodup :=
  nodup_eraseDups _

theorem extendWave_eq
    (c : Catalog)
    (wave requested names : List String) :
    extendWave c wave requested names =
      (wave ++ newNames c requested names, requested ++ newNames c requested names) := by
  induction names generalizing wave requested with
  | nil => simp [extendWave, newNames]
  | cons name rest ih =>
      by_cases hname : (requested.contains name || c.hasAssembly name) = true
      · have hskip : newNames c requested (name :: rest) = newNames c requested rest := by
          rw [newNames, List.filter_cons_of_neg]
          · rfl
          · rw [← Bool.not_or, hname]
            simp
        rw [extendWave, if_pos hname, ih, hskip]
      · have htake : newNames c requested (name :: rest) =
            name :: newNames c (requested ++ [name]) rest := by
          rw [newNames, List.filter_cons_of_pos, List.eraseDups_cons, List.filter_filter, newNames]
          · refine congrArg (fun l => name :: List.eraseDups l) (List.filter_congr ?_)
            intro other _
            by_cases hother : other = name
            · simp [hother]
            · simp [hother]
          · rw [← Bool.not_or]
            simpa using hname
        rw [extendWave, if_neg hname, ih, htake]
        simp

/-- The next wave after some manifests: their dependencies that are new. -/
theorem nextWave_eq
    (c : Catalog)
    (requested : List String)
    (manifests : List Manifest) :
    nextWave c requested manifests =
      (newNames c requested (manifests.flatMap Manifest.dependencyNames),
        requested ++ newNames c requested (manifests.flatMap Manifest.dependencyNames)) := by
  rw [nextWave, extendWave_eq, List.nil_append]

theorem hasFound_eq_true_iff
    {found : List Manifest}
    {name : String} :
    hasFound found name = true ↔ ∃ m ∈ found, m.name = name := by
  simp [hasFound]

/-- Of the manifests of one name the first is found, unless the name is committed or was found
before. -/
theorem mem_foundRoots_iff
    {c : Catalog}
    {found manifests : List Manifest}
    {m : Manifest} :
    m ∈ foundRoots c found manifests ↔
      m ∈ found ∨ hasFound found m.name = false ∧ c.hasAssembly m.name = false ∧
        (manifests.find? fun n => n.name == m.name) = some m := by
  induction manifests generalizing found with
  | nil => simp [foundRoots]
  | cons first rest ih =>
      by_cases hfirst : (hasFound found first.name || c.hasAssembly first.name) = true
      · rw [foundRoots, if_pos hfirst, ih]
        by_cases hm : first.name = m.name
        · rw [hm] at hfirst
          have hno : ¬ (hasFound found m.name = false ∧ c.hasAssembly m.name = false) := by
            rintro ⟨hf, hc⟩
            simp [hf, hc] at hfirst
          rw [← and_assoc, ← and_assoc]
          exact or_congr Iff.rfl ⟨fun h => absurd h.1 hno, fun h => absurd h.1 hno⟩
        · have hm' : (first.name == m.name) = false := by simpa using hm
          simp [hm']
      · rw [foundRoots, if_neg hfirst, ih]
        have hnew : hasFound found first.name = false ∧ c.hasAssembly first.name = false := by
          simpa using hfirst
        by_cases hm : first.name = m.name
        · have hlater : hasFound (found ++ [first]) m.name = true := by
            simp [hasFound, hm]
          have hfind : ((first :: rest).find? fun n => n.name == m.name) = some first := by
            simp [hm]
          rw [hfind, ← hm]
          simp only [hm, hlater, List.mem_append, List.mem_singleton, Bool.true_eq_false,
            false_and, or_false, Option.some.injEq]
          rw [hm] at hnew
          simp [hnew, eq_comm]
        · have hm' : (first.name == m.name) = false := by simpa using hm
          have hne : m ≠ first := fun he => hm (by rw [he])
          have hsame : hasFound (found ++ [first]) m.name = hasFound found m.name := by
            simp [hasFound, hm]
          simp [hm', hne, hsame]

theorem foundRoots_nodup
    {c : Catalog}
    {found manifests : List Manifest}
    (hn : (found.map Manifest.name).Nodup) :
    ((foundRoots c found manifests).map Manifest.name).Nodup := by
  induction manifests generalizing found with
  | nil => exact hn
  | cons first rest ih =>
      by_cases hfirst : (hasFound found first.name || c.hasAssembly first.name) = true
      · rw [foundRoots, if_pos hfirst]
        exact ih hn
      · rw [foundRoots, if_neg hfirst]
        refine ih ?_
        rw [List.map_append]
        refine List.nodup_append.2 ⟨hn, by simp, ?_⟩
        rintro a ha b hb rfl
        obtain ⟨m, hm, rfl⟩ := List.mem_map.1 ha
        have hb' : m.name = first.name := by simpa using hb
        refine hfirst ?_
        rw [hasFound_eq_true_iff.2 ⟨m, hm, hb'⟩, Bool.true_or]

/-- Root manifests of different names are all found, except for those that are committed. -/
theorem foundRoots_of_nodup
    {c : Catalog}
    {found manifests : List Manifest}
    (hn : ((found ++ manifests).map Manifest.name).Nodup) :
    foundRoots c found manifests =
      found ++ manifests.filter fun m => !c.hasAssembly m.name := by
  induction manifests generalizing found with
  | nil => simp [foundRoots]
  | cons first rest ih =>
      have hnew : hasFound found first.name = false := by
        rw [← Bool.not_eq_true, hasFound_eq_true_iff]
        rintro ⟨m, hm, he⟩
        rw [List.map_append] at hn
        exact (List.nodup_append.1 hn).2.2 m.name (List.mem_map_of_mem hm) first.name (by simp) he
      by_cases hc : c.hasAssembly first.name = true
      · have hsub : (found ++ rest).Sublist (found ++ first :: rest) :=
          List.Sublist.append_left (List.sublist_cons_self _ _) _
        rw [foundRoots, if_pos (by simp [hc]), ih (hn.sublist (hsub.map _)),
          List.filter_cons_of_neg (by simp [hc])]
      · rw [foundRoots, if_neg (by simp [hnew, hc]), ih (by simpa using hn),
          List.filter_cons_of_pos (by simpa using hc)]
        simp

/-- A wave of dependencies is added exactly when each manifest declares the name it was asked for. -/
theorem addWave_ok_iff
    {c : Catalog}
    {found result : List Manifest}
    {answers : List (String × Manifest)} :
    addWave c found answers = .ok result ↔
      (∀ a ∈ answers, a.2.name = a.1) ∧
        result = found ++ (answers.map Prod.snd).filter fun m => !c.hasAssembly m.name := by
  induction answers generalizing found with
  | nil => simp [addWave, eq_comm]
  | cons first rest ih =>
      obtain ⟨name, m⟩ := first
      by_cases hname : m.name = name
      · rw [addWave, if_pos hname, ih, List.forall_mem_cons]
        simp only [hname, true_and, List.map_cons]
        refine and_congr Iff.rfl ?_
        by_cases hc : c.hasAssembly name = true
        · rw [if_pos hc, List.filter_cons_of_neg (by simp [hname, hc])]
        · rw [if_neg hc, List.filter_cons_of_pos (by simpa [hname] using hc), List.append_assoc]
          rfl
      · rw [addWave, if_neg hname]
        simp [hname]

end Discovery

namespace Batch

theorem mem_firstWave_iff
    {c : Catalog}
    {identifiers : List String}
    {identifier : String} :
    identifier ∈ firstWave c identifiers ↔
      identifier ∈ identifiers ∧ c.hasAssembly identifier = false := by
  simp [firstWave]

theorem firstWave_nodup
    (c : Catalog)
    (identifiers : List String) :
    (firstWave c identifiers).Nodup :=
  nodup_eraseDups _

end Batch

end TypeGraph
