import Mathlib
import TypeGraph.Proofs.Loading.Serial
import TypeGraph.Proofs.System.Alike
import TypeGraph.Resolver.Table

/-!
# Loads that are made together

Groups that are loaded together share what they fetch, overlap in any way, and see what the others have
committed between two of their waves.  Where every identifier is answered with its own name this can
hardly be told from loading them one after the other: a group has its assemblies or fails as it would
alone, and what it commits is the same.  Only where several identifiers of one wave fail a group may fail
with another of them, since it may share a resolution that was started before its own.

**Results.**
* `TypeSystem.LoadsInTurn.registry_eq`: loads in turn are what a type system does with some requests.
* `TypeSystem.loadTogether_serial`: whatever order the events of loads come in, the loads that have ended
  are loads in turn.
* `TypeSystem.fails_with_shared`: a group that fails with another identifier than it would alone.
-/

namespace TypeGraph

theorem AnswerTable.entry_of_answer
    {table : AnswerTable}
    {identifier : String}
    {source : Source}
    (h : answer table identifier = .source source) :
    (identifier, .source source) ∈ table := by
  unfold answer at h
  split at h
  · rename_i found hfound
    subst h
    exact Nodes.mem_of_lookup hfound
  · cases h

namespace TypeSystem

/-- Load several groups one after the other, each alone. -/
def loadInTurn (s : TypeSystem) (resolver : Resolver) (limit : Option Number) :
    List (List String) → TypeSystem × List (Except Failure (List Manifest))
  | [] => (s, [])
  | identifiers :: rest =>
      let (middle, loaded) := s.loadRoots resolver limit identifiers
      let (final, results) := middle.loadInTurn resolver limit rest
      (final, loaded.result :: results)

/-- Some requests are loaded one after the other, each alone, with results that agree with those that are
listed. -/
inductive LoadsInTurn (resolver : Resolver) (limit : Option Number) :
    TypeSystem → List (List String × Except Failure (List Manifest)) → TypeSystem → Prop
  | done (s : TypeSystem) :
      LoadsInTurn resolver limit s [] s
  | next {s final : TypeSystem} {identifiers : List String}
      {result : Except Failure (List Manifest)}
      {rest : List (List String × Except Failure (List Manifest))} :
      Agree resolver limit s.catalog identifiers result
        (s.loadRoots resolver limit identifiers).2.result →
      LoadsInTurn resolver limit (s.loadRoots resolver limit identifiers).1 rest final →
      LoadsInTurn resolver limit s ((identifiers, result) :: rest) final

/-- The positions of groups that are loaded together, in the order in which their loads end. -/
def endings (s : TypeSystem) (resolver : Resolver) (limit : Option Number)
    (groups : List (List String)) : List Nat :=
  (Loop.complete resolver limit s.registry groups).ended

section InTurn

variable {s final : TypeSystem} {resolver : Resolver} {limit : Option Number}
  {log : List (List String × Except Failure (List Manifest))}

/-- Loads in turn are what a type system does with the requests. -/
theorem LoadsInTurn.registry_eq
    (h : LoadsInTurn resolver limit s log final) :
    (s.loadInTurn resolver limit (log.map Prod.fst)).1 = final := by
  induction h with
  | done s => rfl
  | next _ _ ih => exact ih

/-- A type system at rest that loads some requests in turn. -/
theorem AtRest.loadsInTurn
    {after : TypeRegistry}
    (h : s.AtRest)
    (hlog : InTurn resolver limit s.registry log after) :
    LoadsInTurn resolver limit s log ⟨after⟩ := by
  obtain ⟨r⟩ := s
  simp only at hlog
  induction hlog with
  | done r => exact .done ⟨r⟩
  | @next r middle after identifiers result rest halone _ ih =>
      obtain ⟨rfl, hagree⟩ := halone.agree (loadRoots_alone h.coherent resolver limit identifiers)
      exact .next hagree (ih (h.loadTogether resolver limit [identifiers]))

end InTurn

/-- From any moment that is reached and has nothing on its way, some groups are loaded together, with a
resolver whose answers declare the identifiers they answer.  In whatever order they ask for their waves,
are answered, and are resumed or fail, and whatever the resolver has in flight when they begin, the groups
that have ended by then might have been loaded one after the other, each alone, in the order of their ends:
this leads to the same type system, and each has the assemblies that it would have alone, or fails as it
would alone, but for which failure of one wave it is that fails it.

The loop that runs the groups is such an order of events; with it every group ends, and each once. -/
theorem loadTogether_serial
    {s : TypeSystem}
    (hs : s.moment.Reached)
    (resolver : Resolver)
    (limit : Option Number)
    (groups : List (List String))
    (hname : ∀ identifier source m, resolver.answer identifier = .source source →
      Manifest.decode source = .ok m → m.name = identifier) :
    (∀ flight events loader, flight.Sound (resolver.settle limit) →
      (Loader.start s.registry flight groups).follow? (resolver.settle limit) events = some loader →
        loader.ended.Nodup ∧
        (∀ i, i ∈ loader.ended ↔ ∃ result, loader.states[i]? = some (.ended result)) ∧
        LoadsInTurn resolver limit s (Run.log groups loader.ended loader.states) ⟨loader.registry⟩ ∧
        (s.loadInTurn resolver limit (loader.ended.map fun i => groups.getD i [])).1 =
          ⟨loader.registry⟩) ∧
    (∃ events, (Loader.start s.registry .empty groups).follow? (resolver.settle limit) events =
      some (Loop.complete resolver limit s.registry groups)) ∧
    (s.endings resolver limit groups).Perm (List.range groups.length) ∧
    (s.loadTogether resolver limit groups).2.result.length = groups.length ∧
    LoadsInTurn resolver limit s
      ((s.endings resolver limit groups).map fun i => (groups.getD i [],
        (s.loadTogether resolver limit groups).2.result.getD i (.error .endlessDependencies)))
      (s.loadTogether resolver limit groups).1 := by
  have hf := Resolver.faithful_settle limit hname
  have hrest : s.AtRest := atRest_of_reached hs
  have hevery : ∀ flight events loader, flight.Sound (resolver.settle limit) →
      (Loader.start s.registry flight groups).follow? (resolver.settle limit) events = some loader →
        Run.Serial resolver limit s.registry groups loader.registry loader.ended loader.states :=
    fun flight events loader hsound hrun => Loader.serial_of_follow hf hrest.coherent hsound hrun
  obtain ⟨events, hrun⟩ :=
    Loop.follow_run resolver limit (Loop.enough resolver groups) (Loop.start s.registry groups)
  refine ⟨fun flight events loader hsound hrun => ?_, ⟨events, hrun⟩,
    Loop.ended_complete resolver limit hrest.coherent groups,
    (List.length_map _).trans (Loop.length_states hrest.coherent resolver limit groups), ?_⟩
  · have hserial := hevery flight events loader hsound hrun
    have hturns := hrest.loadsInTurn hserial.inTurn
    have hsame := hturns.registry_eq
    rw [Run.log, List.map_map] at hsame
    exact ⟨hserial.noted.nodup, hserial.noted.mem_iff, hturns, hsame⟩
  · exact hrest.loadsInTurn (hevery .empty events _ (Flight.sound_empty _) hrun).inTurn

/-- A table with an application and the library that it depends on. -/
def applicationAndLibrary : AnswerTable :=
  [("app", .source (.value (.object [("name", .string "app"), ("version", .string "1"),
    ("dependencies", .array [.string "lib"])]))),
   ("lib", .source (.value (.object [("name", .string "lib"), ("version", .string "1")])))]

theorem applicationAndLibrary_named :
    ∀ identifier source m,
      (AnswerTable.resolver applicationAndLibrary).answer identifier = .source source →
        Manifest.decode source = .ok m → m.name = identifier := by
  intro identifier source m ha hd
  have hentry := AnswerTable.entry_of_answer ha
  simp only [applicationAndLibrary, List.mem_cons, List.not_mem_nil, or_false, Prod.mk.injEq,
    Answer.source.injEq] at hentry
  obtain ⟨rfl, rfl⟩ | ⟨rfl, rfl⟩ := hentry
  · cases hd
    rfl
  · cases hd
    rfl

/-- The library is committed by its own group while the application waits for it: the groups end in the
other order. -/
theorem loadTogether_serial_of_application :
    let resolver := AnswerTable.resolver applicationAndLibrary
    let groups := [["app"], ["lib"]]
    (∀ identifier source m, resolver.answer identifier = .source source →
      Manifest.decode source = .ok m → m.name = identifier) ∧
      empty.endings resolver none groups = [1, 0] ∧
      LoadsInTurn resolver none empty
        ([1, 0].map fun i => (groups.getD i [],
          (empty.loadTogether resolver none groups).2.result.getD i (.error .endlessDependencies)))
        (empty.loadTogether resolver none groups).1 := by
  have hends : empty.endings (AnswerTable.resolver applicationAndLibrary) none
      [["app"], ["lib"]] = [1, 0] := by
    cbv
  obtain ⟨-, -, -, -, h⟩ := loadTogether_serial (reached_after [])
    (AnswerTable.resolver applicationAndLibrary) none [["app"], ["lib"]] applicationAndLibrary_named
  have hempty : after [] = empty := rfl
  rw [hempty, hends] at h
  exact ⟨applicationAndLibrary_named, hends, h⟩

/-- One group asks for `u`, another one for `v` and `u`, and there is no manifest of either.  They share the
resolution of `u`, which was started first, and both fail with it; in turn the other group fails with `v`.
So it is not so that groups are always answered as if they were loaded in turn. -/
theorem fails_with_shared :
    let resolver := AnswerTable.resolver []
    let groups := [["u"], ["v", "u"]]
    (empty.loadTogether resolver none groups).2.result =
        [.error (.notRegistered "u"), .error (.notRegistered "u")] ∧
      (empty.loadInTurn resolver none groups).2 =
        [.error (.notRegistered "u"), .error (.notRegistered "v")] ∧
      ¬ ∀ groups : List (List String),
        (empty.loadInTurn resolver none
            ((empty.endings resolver none groups).map fun i => groups.getD i [])).2 =
          (empty.endings resolver none groups).map fun i =>
            (empty.loadTogether resolver none groups).2.result.getD i
              (.error .endlessDependencies) := by
  intro resolver groups
  have htogether : (empty.loadTogether resolver none groups).2.result =
      [.error (.notRegistered "u"), .error (.notRegistered "u")] := by
    unfold resolver groups
    cbv
  have hturn : (empty.loadInTurn resolver none groups).2 =
      [.error (.notRegistered "u"), .error (.notRegistered "v")] := by
    unfold resolver groups
    cbv
  have hends : empty.endings resolver none groups = [0, 1] := by
    unfold resolver groups
    cbv
  refine ⟨htogether, hturn, fun h => ?_⟩
  have hgroups := h groups
  rw [hends, htogether] at hgroups
  have hsame : (empty.loadInTurn resolver none groups).2 = _ := hgroups
  rw [hturn] at hsame
  simp at hsame

end TypeSystem
end TypeGraph
