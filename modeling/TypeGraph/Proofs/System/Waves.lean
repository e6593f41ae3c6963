import Mathlib
import TypeGraph.Proofs.Loading.BreadthFirst
import TypeGraph.Proofs.System.Reasons
import TypeGraph.Proofs.System.Requests

/-!
# The order of the requests of a load

A load that runs alone asks for what it needs in breadth-first order: for its roots, then for their
dependencies, and so on, wave by wave, each identifier once.  It follows the manifests that it takes: where
two roots lead to manifests of one name, the second manifest is left aside and so are its dependencies.

**Results.**
* `TypeSystem.requests_breadth_first`: what is asked for, wave by wave.
* `TypeSystem.dependency_not_followed`: a dependency that is not asked for.
-/

namespace TypeGraph
namespace TypeSystem

section Single

variable {resolver : Resolver} {limit : Option Number} {r : TypeRegistry}
  {identifiers : List String}

/-- What is asked for by waves is not committed when the load begins. -/
theorem not_committed_of_askedWith
    {answer : String → Except Failure Manifest}
    {c : Catalog}
    {waves : List (List String)}
    (hw : Waves answer c identifiers waves)
    {identifier : String}
    (hi : identifier ∈ askedWith identifiers waves) :
    c.hasAssembly identifier = false := by
  obtain ⟨k, names, hk, hmem⟩ := exists_wave_of_mem hi
  obtain ⟨-, taken, requested, hwave⟩ := hw k names hk
  exact hwave.wave_spec.2.1 identifier hmem

/-- In whatever order the events of a load come, it has asked for its first waves, and has begun a next one
as long as it is on its way. -/
theorem exists_waves_of_single
    (hc : r.catalog.Coherent)
    {events : List Loader.Event}
    {loader : Loader}
    (hf : (Loader.start r .empty [identifiers]).follow? (resolver.settle limit) events = some loader) :
    ∃ waves : List (List String),
      loader.requests = askedWith identifiers waves ∧
      Waves (resolver.settle limit) r.catalog identifiers waves ∧
      (∀ b, loader.loads = [⟨.active b, none⟩] →
        (∃ taken requested, WaveAt (resolver.settle limit) r.catalog identifiers waves.length b.wave
          taken requested) ∧
        loader.asks (.requests 0) = newIn identifiers waves.length b.wave ∧
        (waves ≠ [] → ∀ identifier ∈ b.wave, identifier ∈ identifiers →
          ∃ number m, loader.flight.shared.lookup identifier = some number ∧
            loader.flight.manifestOf number = some m ∧ m.name ≠ identifier)) ∧
      ∀ result, loader.states = [.ended result] → ∀ k names, waves[k]? = some names ↔
        (k = 0 ∨ names ≠ []) ∧ ∃ taken requested, WaveAt (resolver.settle limit) r.catalog identifiers k
          names taken requested := by
  obtain ⟨waves, hw, hr, hsearches⟩ := Loader.exists_searches hc hf
  refine ⟨waves, hr, hw, fun b hl => ?_, fun result hended => hsearches.waves_iff hw hended⟩
  have horderly := ((Loader.Orderly.start hc (Flight.sound_empty _) [identifiers]).follow
    (Run.Kept.nothing resolver limit) trivial hf).1
  have haccounted := (Loader.accounted_follow hc hf).resolve_left fun ⟨failure, hfailure⟩ => by
    simp [Loader.states, hl] at hfailure
  obtain ⟨hended, hat⟩ := hsearches.of_asking hl
  exact ⟨hat.exists_wave, Loader.asks_of_wave horderly haccounted hw hr hended hl hat,
    fun hne identifier => Loader.shared_of_root horderly haccounted hw hr hended hl hat hne⟩

end Single

/-- At any moment that is reached, with nothing on its way and nothing in flight, a load of some roots
comes to its end, whatever its resolver answers, and nothing is left to do then.

In whatever order its events come, it asks for nothing twice and for nothing that is committed.  It has
asked for its first waves, one after the other, and when it is about to ask for another wave this is the
next one.  What it asks for is all of the first wave, and of a later one what was not requested as a root;
such a root was answered with a manifest of another name, which is shared still.  When the load has ended it
has waited for every wave there is; only the first of them can be empty. -/
theorem requests_breadth_first
    {s : TypeSystem}
    (hs : s.moment.Reached)
    (resolver : Resolver)
    (limit : Option Number)
    (identifiers : List String) :
    let answer := resolver.settle limit
    let start := Loader.start s.registry .empty [identifiers]
    let loaded := (s.loadRoots resolver limit identifiers).2
    let wave := WaveAt answer s.catalog identifiers
    (∀ ticks, Loop.enough resolver [identifiers] ≤ ticks →
      let last := (Loop.run resolver limit ticks (Loop.start s.registry [identifiers])).loader
      last.states = [.ended loaded.result] ∧ last.requests = loaded.requests) ∧
    (∃ events, start.follow? answer events =
      some (Loop.complete resolver limit s.registry [identifiers])) ∧
    (∀ events loader, start.follow? answer events = some loader →
      loader.requests.Nodup ∧
      (∀ identifier ∈ loader.requests, s.catalog.hasAssembly identifier = false) ∧
      ∃ waves : List (List String),
        loader.requests = askedWith identifiers waves ∧
        (∀ k names, waves[k]? = some names →
          (k = 0 ∨ names ≠ []) ∧ ∃ taken requested, wave k names taken requested) ∧
        (∀ b, loader.loads = [⟨.active b, none⟩] →
          (∃ taken requested, wave waves.length b.wave taken requested) ∧
          loader.asks (.requests 0) = newIn identifiers waves.length b.wave ∧
          (waves ≠ [] → ∀ identifier ∈ b.wave, identifier ∈ identifiers →
            ∃ number m, loader.flight.shared.lookup identifier = some number ∧
              loader.flight.manifestOf number = some m ∧ m.name ≠ identifier)) ∧
        ∀ result, loader.states = [.ended result] → ∀ k names, waves[k]? = some names ↔
          (k = 0 ∨ names ≠ []) ∧ ∃ taken requested, wave k names taken requested) ∧
    loaded.requests.Nodup ∧
    (∀ identifier ∈ loaded.requests, s.catalog.hasAssembly identifier = false) ∧
    ∃ waves : List (List String), loaded.requests = askedWith identifiers waves ∧
      ∀ k names, waves[k]? = some names ↔
        (k = 0 ∨ names ≠ []) ∧ ∃ taken requested, wave k names taken requested := by
  intro answer start loaded wave
  have hrest : s.AtRest := atRest_of_reached hs
  have hc := hrest.coherent
  obtain ⟨hlast, hrequests⟩ := hrest.complete_alone resolver limit identifiers
  have hnodup : ∀ events loader, start.follow? answer events = some loader → loader.requests.Nodup :=
    fun events loader hf => requests_nodup_of_single hc (by simp) hf
  obtain ⟨events, hcomplete⟩ : ∃ events, start.follow? answer events =
      some (Loop.complete resolver limit s.registry [identifiers]) :=
    Loop.follow_run resolver limit _ (Loop.start s.registry [identifiers])
  obtain ⟨waves, hasked, hw, -, hwaves⟩ := exists_waves_of_single hc hcomplete
  rw [hrequests] at hasked
  refine ⟨fun ticks hticks => ?_, ⟨events, hcomplete⟩, fun events loader hf => ?_,
    hrequests ▸ hnodup events _ hcomplete,
    fun identifier hi => not_committed_of_askedWith hw (hasked ▸ hi), waves, hasked,
    hwaves _ hlast⟩
  · have hdone : (Loop.complete resolver limit s.registry [identifiers]).isDone = true :=
      Loop.isDone_complete hc
    have hsame := Loop.run_of_isDone hdone hticks
    simp only [hsame]
    exact ⟨hlast, hrequests⟩
  · obtain ⟨waves, hr, hw, hasking, hended⟩ := exists_waves_of_single hc hf
    exact ⟨hnodup events loader hf, fun identifier hi => not_committed_of_askedWith hw (hr ▸ hi),
      waves, hr, hw, hasking, hended⟩

end TypeSystem

/-- A table with an application, a tool whose manifest declares another name, and what the two depend on:
the application on the tool too. -/
def renamedTool : AnswerTable :=
  [("app", .source (.value (.object [("name", .string "app"), ("version", .string "1"),
    ("dependencies", .array [.string "lib", .string "tool"])]))),
   ("tool", .source (.value (.object [("name", .string "kit"), ("version", .string "1"),
    ("dependencies", .array [.string "core"])]))),
   ("lib", .source (.value (.object [("name", .string "lib"), ("version", .string "1")]))),
   ("core", .source (.value (.object [("name", .string "core"), ("version", .string "1")])))]

namespace TypeSystem

/-- The second wave has the dependencies of the application and of the tool.  The tool is among them and
is not asked for again: it was a root, and its manifest is shared under another name. -/
theorem requests_breadth_first_of_renamedTool :
    let resolver := AnswerTable.resolver renamedTool
    let roots := ["app", "tool"]
    (after []).moment.Reached ∧
    (∃ taken requested, WaveAt (resolver.settle none) (after []).catalog roots 1
      ["lib", "tool", "core"] taken requested) ∧
    ∃ waves : List (List String), waves[1]? = some ["lib", "tool", "core"] ∧
      ((after []).loadRoots resolver none roots).2.requests = askedWith roots waves ∧
      ((after []).loadRoots resolver none roots).2.requests = ["app", "tool", "lib", "core"] ∧
      ((after []).loadRoots resolver none roots).2.requests.Nodup := by
  intro resolver roots
  have hreached := reached_after []
  have hroots : (roots.filter fun i => !(after []).catalog.hasAssembly i).eraseDups = roots := by
    rfl
  have hsecond : (do
      let manifests ← roots.mapM (resolver.settle none)
      return newDependencies (after []).catalog ([] ++ takenFrom (after []).catalog manifests) []
        (takenFrom (after []).catalog manifests)) = .ok ["lib", "tool", "core"] := by
    unfold resolver roots
    cbv
  have hall : ((after []).loadRoots resolver none roots).2.requests =
      ["app", "tool", "lib", "core"] := by
    unfold resolver roots
    cbv
  obtain ⟨manifests, hmanifests, hnames⟩ := bind_eq_ok_iff.1 hsecond
  rw [pure_eq_ok_iff] at hnames
  have hfirst : WaveAt (resolver.settle none) (after []).catalog roots 0 roots [] [] := by
    have hwave : WaveAt (resolver.settle none) (after []).catalog roots 0
        (roots.filter fun i => !(after []).catalog.hasAssembly i).eraseDups [] [] := .roots
    rwa [hroots] at hwave
  have hwave := WaveAt.next hfirst (mapM_eq_ok_iff.1 hmanifests) (by simp)
  rw [hnames] at hwave
  obtain ⟨-, -, -, hnodup, -, waves, hasked, hwaves⟩ :=
    requests_breadth_first hreached resolver none roots
  exact ⟨hreached, ⟨_, _, hwave⟩, waves, (hwaves 1 _).2 ⟨Or.inr (by simp), _, _, hwave⟩, hasked, hall,
    hnodup⟩

/-- A load does not ask for everything that the manifests of its first wave depend on: of two roots with
manifests of one name the second one is not followed. -/
theorem dependency_not_followed :
    ¬ ∀ earlier resolver limit identifiers manifests,
      List.Forall₂ (fun identifier m => resolver.settle limit identifier = .ok m)
        (identifiers.filter fun i => !(after earlier).catalog.hasAssembly i).eraseDups manifests →
      ∀ m ∈ manifests, ∀ name ∈ m.dependencyNames,
        (after earlier).catalog.hasAssembly name = true ∨ name ∈ manifests.map Manifest.name ∨
          name ∈ ((after earlier).loadRoots resolver limit identifiers).2.requests := by
  intro hclaim
  have hfacts : (do
      let manifests ← (["y", "x"].filter fun i => !(after []).catalog.hasAssembly i).eraseDups.mapM
        ((AnswerTable.resolver twoVersions).settle none)
      return manifests.map fun m : Manifest => (m.name, m.dependencyNames)) =
      .ok [("lib", []), ("lib", ["part"])] := by
    cbv
  have hrequests : ((after []).loadRoots (AnswerTable.resolver twoVersions) none ["y", "x"]).2.requests =
      ["y", "x"] := by
    cbv
  obtain ⟨manifests, hmanifests, hnames⟩ := bind_eq_ok_iff.1 hfacts
  rw [pure_eq_ok_iff] at hnames
  obtain ⟨first, rest, rfl, hlib, hrest⟩ := List.map_eq_cons_iff.1 hnames
  obtain ⟨second, rfl, hsecond⟩ := List.map_eq_singleton_iff.1 hrest
  simp only [Prod.mk.injEq] at hlib hsecond
  have hpart := hclaim [] _ none ["y", "x"] _ (mapM_eq_ok_iff.1 hmanifests) second (by simp) "part"
    (by simp [hsecond.2])
  have hempty : (after []).catalog.hasAssembly "part" = false := by rfl
  rw [hrequests, hempty] at hpart
  simp [hlib.1, hsecond.1] at hpart

end TypeSystem
end TypeGraph
