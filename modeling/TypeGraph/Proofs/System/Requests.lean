import Mathlib
import TypeGraph.Proofs.Loading.Accounted
import TypeGraph.Proofs.System.Together

/-!
# What is fetched again

Groups that are loaded together fetch each identifier once, but for one case: a load has decided to ask
for an assembly, and before it does so another one commits this assembly and releases its manifest.  Then
the manifest is fetched again though its assembly is committed.  It takes two groups for that.

This holds in whatever order the events of the loads come.  The loop lets all loads ask for their roots
before anything else happens.

**Results.**
* `TypeSystem.fetched_again_only_when_just_committed`: when an identifier is fetched again.
* `TypeSystem.library_fetched_again`: an application and its library, where it happens.
-/

namespace TypeGraph
namespace TypeSystem

/-- A run comes to a loader, where an event happens, and then to its end. -/
structure Visits (answer : String → Except Failure Manifest) (start : Loader)
    (before : List Loader.Event) (now : Loader) (event : Loader.Event) (after : List Loader.Event)
    (last : Loader) : Prop where
  reached : start.follow? answer before = some now
  ends : now.follow? answer (event :: after) = some last

section Visits

variable {resolver : Resolver} {limit : Option Number} {r : TypeRegistry}
  {groups : List (List String)}

/-- One load alone asks for nothing twice. -/
theorem requests_nodup_of_single
    (hc : r.catalog.Coherent)
    (hone : groups.length ≤ 1)
    {events : List Loader.Event}
    {last : Loader}
    (hf : (Loader.start r .empty groups).follow? (resolver.settle limit) events = some last) :
    last.requests.Nodup := by
  have hstart : (Loader.start r .empty groups).Orderly resolver limit :=
    .start hc (Flight.sound_empty _) groups
  refine hstart.requests_nodup List.nodup_nil hf ?_
  intro before event after middle _ hmiddle identifier hi
  exact (Loader.asks_of_single hc hmiddle hi hone).2

/-- Where all loads ask for their roots first and succeed in the end, nothing is asked for twice unless
something is asked for that is committed. -/
theorem requests_nodup_of_openings
    (hc : r.catalog.Coherent)
    {rest : List Loader.Event}
    {last : Loader}
    (hf : (Loader.start r .empty groups).follow? (resolver.settle limit)
      (Loader.openings groups ++ rest) = some last)
    (hall : last.AllLoaded)
    (hnew : ∀ before now event after, before ++ event :: after = Loader.openings groups ++ rest →
      Visits (resolver.settle limit) (Loader.start r .empty groups) before now event after last →
        ∀ identifier ∈ now.asks event, now.registry.catalog.hasAssembly identifier = false) :
    last.requests.Nodup := by
  have hstart : (Loader.start r .empty groups).Orderly resolver limit :=
    .start hc (Flight.sound_empty _) groups
  refine hstart.requests_nodup List.nodup_nil hf ?_
  intro before event after middle hsplit hmiddle identifier hi hagain
  rw [hsplit, Loader.follow?_append, hmiddle] at hf
  obtain ⟨next, hnext, hlast⟩ := Loader.follow?_cons_eq_some_iff.1 hf
  have hcommitted := Loader.committed_of_openings hc hsplit.symm hmiddle hnext hlast hall hi hagain
  rw [hnew before middle event after hsplit.symm ⟨hmiddle, hf⟩ identifier hi] at hcommitted
  cases hcommitted

end Visits

/-- At any moment that is reached, with nothing on its way and nothing in flight, some groups are loaded
together.  In whatever order the events of their loads come, the requests of a run are what its events ask
for, one event after the other, and no event asks for anything twice.

What an event asks for, though it is the name of an assembly that is committed by then, was not committed
when the load that asks for it had decided on its wave, and in between the load has not asked.

If every load succeeds in the end, then of what is asked for again the assembly is committed by then.  It
is committed under the identifier itself, unless this is asked for as a root after the end of another load.
Where all loads ask for their roots first, as they do in the loop, this leaves only what is asked for though
it is committed; unless there is such a thing, nothing is asked for twice.

One group alone asks for nothing that is committed and for nothing twice, whether or not it succeeds. -/
theorem fetched_again_only_when_just_committed
    {s : TypeSystem}
    (hs : s.moment.Reached)
    (resolver : Resolver)
    (limit : Option Number)
    (groups : List (List String)) :
    let answer := resolver.settle limit
    let start := Loader.start s.registry .empty groups
    let committed := fun (now : Loader) identifier => now.registry.catalog.hasAssembly identifier
    (∀ before now event after last, Visits answer start before now event after last →
      (∀ next, now.next? answer event = some next →
        next.requests = now.requests ++ now.asks event ∧ (now.asks event).Nodup) ∧
      (∀ identifier ∈ now.asks event, committed now identifier = true →
        ∃ i b earlier later middle, event = .requests i ∧ identifier ∈ b.wave ∧
          before = earlier ++ later ∧ .requests i ∉ later ∧
          start.follow? answer earlier = some middle ∧
          middle.loads[i]? = some ⟨.active b, none⟩ ∧ now.loads[i]? = some ⟨.active b, none⟩ ∧
          committed middle identifier = false) ∧
      (last.AllLoaded → ∀ identifier ∈ now.asks event, identifier ∈ now.requests →
        (∃ m, answer identifier = .ok m ∧ committed now m.name = true) ∧
        (committed now identifier = true ∨ now.ended ≠ [] ∧ ∃ i b, event = .requests i ∧
          now.loads[i]? = some ⟨.active b, none⟩ ∧ b.discovery = none) ∧
        ((∃ rest, before ++ event :: after = Loader.openings groups ++ rest) →
          committed now identifier = true)) ∧
      (groups.length ≤ 1 → ∀ identifier ∈ now.asks event,
        committed now identifier = false ∧ identifier ∉ now.requests)) ∧
    (∀ rest last, start.follow? answer (Loader.openings groups ++ rest) = some last → last.AllLoaded →
      (∀ before now event after, before ++ event :: after = Loader.openings groups ++ rest →
        Visits answer start before now event after last →
          ∀ identifier ∈ now.asks event, committed now identifier = false) →
      last.requests.Nodup) ∧
    (groups.length ≤ 1 → ∀ events last, start.follow? answer events = some last →
      last.requests.Nodup) ∧
    ∃ rest, start.follow? answer (Loader.openings groups ++ rest) =
      some (Loop.complete resolver limit s.registry groups) := by
  intro answer start committed
  have hc : s.registry.catalog.Coherent := hs.orderly.coherent
  have hstart : start.Orderly resolver limit := .start hc (Flight.sound_empty _) groups
  refine ⟨?_, fun rest last hf hall hnew => requests_nodup_of_openings hc hf hall hnew,
    fun hone events last hf => requests_nodup_of_single hc hone hf,
    Loop.follow_complete resolver limit s.registry groups⟩
  rintro before now event after last ⟨hreached, hends⟩
  have horderly := (hstart.follow (Run.Kept.nothing resolver limit) trivial hreached).1
  obtain ⟨next, hnext, hlast⟩ := Loader.follow?_cons_eq_some_iff.1 hends
  refine ⟨fun _ h => horderly.requests_next h, fun identifier hi _ => ?_,
    fun hall identifier hi hagain => ?_, fun hone identifier hi => ?_⟩
  · exact Loader.asked_when_committed hc hreached hi
  · obtain ⟨hmanifest, hwhere⟩ :=
      Loader.committed_of_asked_again hc hreached hi hnext hlast hall hagain
    refine ⟨hmanifest, hwhere, ?_⟩
    rintro ⟨rest, hopenings⟩
    exact Loader.committed_of_openings hc hopenings hreached hnext hlast hall hi hagain
  · exact Loader.asks_of_single hc hreached hi hone

/-- The application has been answered and goes on to its library, which is committed by the other load
before the application asks for it. -/
def libraryFirst : List Loader.Event :=
  [.requests 0, .requests 1, .answers 0, .answers 1, .resumes 0, .resumes 1]

/-- Loads whose results are assemblies have succeeded. -/
theorem allLoaded_of_results
    {s : Loader}
    (h : ∀ result ∈ s.results, result.isOk = true) :
    s.AllLoaded := by
  intro state hstate
  have hok := h _ (List.mem_map_of_mem hstate)
  match state with
  | .ended (.ok found) => exact ⟨found, rfl⟩
  | .ended (.error failure) => cases hok
  | .active b => cases hok

/-- Then the application asks for its library, which is committed by then. -/
theorem application_asks_for_library :
    let answer := (AnswerTable.resolver applicationAndLibrary).settle none
    let start := Loader.start (after []).registry .empty [["app"], ["lib"]]
    ∃ now last,
      Visits answer start libraryFirst now (.requests 0) [.answers 2, .resumes 0] last ∧
        last.AllLoaded ∧ now.asks (.requests 0) = ["lib"] ∧ now.requests = ["app", "lib"] ∧
        now.registry.catalog.hasAssembly "lib" = true := by
  intro answer start
  have hnow : (start.follow? answer libraryFirst).map (fun now =>
      (now.asks (.requests 0), now.requests, now.registry.catalog.hasAssembly "lib")) =
        some (["lib"], ["app", "lib"], true) := by
    unfold start answer
    cbv
  have hlast : ((start.follow? answer libraryFirst).bind fun now =>
      now.follow? answer [.requests 0, .answers 2, .resumes 0]).map (fun last =>
        last.results.all Except.isOk) = some true := by
    unfold start answer
    cbv
  obtain ⟨now, hreached, hasks⟩ := Option.map_eq_some_iff.1 hnow
  obtain ⟨last, hends, hall⟩ := Option.map_eq_some_iff.1 hlast
  rw [hreached] at hends
  simp only [Prod.mk.injEq] at hasks
  exact ⟨now, last, ⟨hreached, hends⟩, allLoaded_of_results (List.all_eq_true.1 hall), hasks⟩

/-- The library was not committed when the application decided to ask for it. -/
theorem fetched_again_only_when_just_committed_of_application :
    let answer := (AnswerTable.resolver applicationAndLibrary).settle none
    let start := Loader.start (after []).registry .empty [["app"], ["lib"]]
    (after []).moment.Reached ∧
    ∃ now last,
      Visits answer start libraryFirst now (.requests 0) [.answers 2, .resumes 0] last ∧
        last.AllLoaded ∧ now.asks (.requests 0) = ["lib"] ∧ "lib" ∈ now.requests ∧
        now.registry.catalog.hasAssembly "lib" = true ∧
        ∃ b earlier later middle, libraryFirst = earlier ++ later ∧ .requests 0 ∉ later ∧
          start.follow? answer earlier = some middle ∧
          middle.loads[0]? = some ⟨.active b, none⟩ ∧
          middle.registry.catalog.hasAssembly "lib" = false := by
  intro answer start
  have hreached := reached_after []
  obtain ⟨now, last, hvisits, hall, hasks, hrequests, hcommitted⟩ := application_asks_for_library
  have hlib : "lib" ∈ now.asks (.requests 0) := by simp [hasks]
  obtain ⟨hevery, -⟩ := fetched_again_only_when_just_committed hreached
    (AnswerTable.resolver applicationAndLibrary) none [["app"], ["lib"]]
  obtain ⟨-, hjust, hagain, -⟩ := hevery _ now _ _ last hvisits
  obtain ⟨i, b, earlier, later, middle, he, -, hsplit, hnot, hmiddle, hdecided, -, hlacks⟩ :=
    hjust "lib" hlib hcommitted
  cases he
  have hagain := hagain hall "lib" hlib (by simp [hrequests])
  exact ⟨hreached, now, last, hvisits, hall, hasks, by simp [hrequests],
    hagain.2.2 ⟨_, rfl⟩, b, earlier, later, middle, hsplit, hnot, hmiddle, hdecided, hlacks⟩

/-- So it is not so that nothing is fetched that is committed, nor that nothing is fetched twice where
every group succeeds; the loop itself comes to this. -/
theorem library_fetched_again :
    let resolver := AnswerTable.resolver applicationAndLibrary
    let answer := resolver.settle none
    let groups := [["app"], ["lib"]]
    let start := Loader.start (after []).registry .empty groups
    (¬ ∀ before now event after last, Visits answer start before now event after last →
      ∀ identifier ∈ now.asks event, now.registry.catalog.hasAssembly identifier = false) ∧
    ¬ ((∀ result ∈ ((after []).loadTogether resolver none groups).2.result,
        ∃ found, result = .ok found) →
      ((after []).loadTogether resolver none groups).2.requests.Nodup) := by
  intro resolver answer groups start
  constructor
  · intro hnever
    obtain ⟨now, last, hvisits, -, hasks, -, hcommitted⟩ := application_asks_for_library
    rw [hnever _ now _ _ last hvisits "lib" (by simp [hasks])] at hcommitted
    cases hcommitted
  · have hloaded : (fun loaded => (loaded.result.all Except.isOk, loaded.requests))
        ((after []).loadTogether resolver none groups).2 = (true, ["app", "lib", "lib"]) := by
      unfold resolver groups
      cbv
    obtain ⟨hall, hrequests⟩ := Prod.mk.inj hloaded
    intro honce
    have hnodup := honce fun result hmem => by
      have hok := List.all_eq_true.1 hall result hmem
      cases result with
      | ok found => exact ⟨found, rfl⟩
      | error failure => cases hok
    rw [hrequests] at hnodup
    simp at hnodup

end TypeSystem
end TypeGraph
