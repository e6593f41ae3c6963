import Mathlib
import TypeGraph.Proofs.Loading.Required
import TypeGraph.Proofs.Loading.Unshared
import TypeGraph.Proofs.System.Alike
import TypeGraph.Resolver.Table

/-!
# Failed loads

A load that fails leaves the registry as it was, wherever it failed: while its waves were fetched, in a
cycle of dependencies, or in one of the checks of its batch.  The commit itself cannot fail half way.  It
also prunes what it has fetched.

What has no answer when the load fails stays in flight, though, and is shared once it is answered.  Loads
of the same loader that come later can hear of it, and then they can tell that the load was made.

**Results.**
* `TypeSystem.AtRest.loadRoots_failed`, `TypeSystem.AtRest.loadAll_failed`,
  `TypeSystem.AtRest.load_failed`: a load that fails changes nothing.
* `TypeSystem.failed_load_leaves_no_trace`: what a load leaves when it fails, and that it leaves no trace
  where all that it asked for is answered, or where the next load has a loader of its own.
* `TypeSystem.trace_of_failed_load`: a manifest that was asked for by a load that failed is taken later.
-/

namespace TypeGraph

/-- An action that loads roots for one caller. -/
def Action.LoadsAlone : Action → Prop
  | .load .. | .loadAll .. | .loadRoots .. => True
  | .loadTogether .. | .promoteRoot _ | .ask _ => False

/-- An action that failed. -/
def Outcome.Failed : Outcome → Prop
  | .loaded l => ∃ failure, l.result = .error failure
  | .loadedAll l => ∃ failure, l.result = .error failure
  | .loadedRoots l => ∃ failure, l.result = .error failure
  | .loadedTogether l => ∀ result ∈ l.result, ∃ failure, result = .error failure
  | .promoted result => ∃ failure, result = .error failure
  | .replied result => ∃ failure, result = .error failure

namespace TypeSystem

/-- A load for the type system itself succeeds when the load of roots does. -/
theorem loadAll_ok_iff
    (s : TypeSystem)
    (resolver : Resolver)
    (limit : Option Number)
    (identifiers : List String) :
    (s.loadAll resolver limit identifiers).2.result = .ok () ↔
      ∃ found, (s.loadRoots resolver limit identifiers).2.result = .ok found := by
  unfold loadAll
  cases hr : (s.loadRoots resolver limit identifiers).2.result with
  | error failure => simp [hr, Except.map]
  | ok found => simp [hr, Except.map]

section Failed

variable {s : TypeSystem} (h : s.AtRest) (resolver : Resolver) (limit : Option Number)
include h

/-- A load of roots has changed nothing, or it has one assembly for each identifier. -/
theorem AtRest.loadRoots_cases
    (identifiers : List String) :
    (∃ failure, (s.loadRoots resolver limit identifiers).2.result = .error failure ∧
      (s.loadRoots resolver limit identifiers).1 = s) ∨
    ∃ found, (s.loadRoots resolver limit identifiers).2.result = .ok found ∧
      found.length = identifiers.length := by
  have halone := loadRoots_alone h.coherent resolver limit identifiers
  rcases halone.outcome h.coherent with
    ⟨failure, hf, hr⟩ | ⟨b, d, batch, found, hway, -, hd, -, -, hfound, hok⟩
  · exact Or.inl ⟨failure, hf, congrArg TypeSystem.mk hr⟩
  · refine Or.inr ⟨found, hok, ?_⟩
    have hnamed := ((OnWay.exact hway).2.2 d hd).named
    rw [hnamed.length_eq, (mapM_eq_ok_iff.1 hfound).length_eq]

/-- A load of one root succeeds when the load of roots does, since that has one assembly then. -/
theorem AtRest.load_ok_iff
    (identifier : String) :
    (∃ m, (s.load resolver limit identifier).2.result = .ok m) ↔
      ∃ found, (s.loadRoots resolver limit [identifier]).2.result = .ok found := by
  unfold load
  rcases h.loadRoots_cases resolver limit [identifier] with ⟨failure, hf, -⟩ | ⟨found, hok, hlength⟩
  · simp [hf, Except.bind]
  · obtain ⟨m, rfl⟩ := List.length_eq_one_iff.1 hlength
    simp [hok, Except.bind]

/-- A load of roots that fails changes nothing. -/
theorem AtRest.loadRoots_failed
    {identifiers : List String}
    {failure : Failure}
    (hf : (s.loadRoots resolver limit identifiers).2.result = .error failure) :
    (s.loadRoots resolver limit identifiers).1 = s := by
  rcases h.loadRoots_cases resolver limit identifiers with ⟨-, -, hs⟩ | ⟨found, hok, -⟩
  · exact hs
  · rw [hf] at hok
    cases hok

/-- So does a load for the type system itself. -/
theorem AtRest.loadAll_failed
    {identifiers : List String}
    {failure : Failure}
    (hf : (s.loadAll resolver limit identifiers).2.result = .error failure) :
    (s.loadAll resolver limit identifiers).1 = s := by
  rcases h.loadRoots_cases resolver limit identifiers with ⟨-, -, hs⟩ | ⟨found, hok, -⟩
  · exact hs
  · rw [(loadAll_ok_iff s resolver limit identifiers).2 ⟨found, hok⟩] at hf
    cases hf

/-- So does the load of one root. -/
theorem AtRest.load_failed
    {identifier : String}
    {failure : Failure}
    (hf : (s.load resolver limit identifier).2.result = .error failure) :
    (s.load resolver limit identifier).1 = s := by
  rcases h.loadRoots_cases resolver limit [identifier] with ⟨-, -, hs⟩ | ⟨found, hok, -⟩
  · exact hs
  · obtain ⟨m, hm⟩ := (h.load_ok_iff resolver limit identifier).2 ⟨found, hok⟩
    rw [hf] at hm
    cases hm

/-- A load that fails, alone or for the type system itself, changes nothing. -/
theorem AtRest.perform_failed
    {action : Action}
    (ha : action.LoadsAlone)
    (hf : (s.perform action).2.Failed) :
    (s.perform action).1 = s := by
  cases action with
  | load resolver limit identifier =>
      obtain ⟨failure, hf⟩ := hf
      exact h.load_failed resolver limit hf
  | loadAll resolver limit identifiers =>
      obtain ⟨failure, hf⟩ := hf
      exact h.loadAll_failed resolver limit hf
  | loadRoots resolver limit identifiers =>
      obtain ⟨failure, hf⟩ := hf
      exact h.loadRoots_failed resolver limit hf
  | loadTogether resolver limit groups => exact ha.elim
  | promoteRoot name => exact ha.elim
  | ask inquiry => exact ha.elim

end Failed

section Left

variable {resolver : Resolver} {limit : Option Number} {r : TypeRegistry} {f : Flight}
  {identifiers : List String} {before loader : Loader} {b : Batch} {failure : Failure}

/-- A load alone that fails leaves the registry as it was when it began, and shares only what was shared
then and it has not asked for, and what has no answer. -/
theorem left_of_single
    (hc : r.catalog.Coherent)
    (hsound : f.Sound (resolver.settle limit))
    {events : List Loader.Event}
    (hf : (Loader.start r f [identifiers]).follow? (resolver.settle limit) events = some before)
    {event : Loader.Event}
    (hnext : before.next? (resolver.settle limit) event = some loader)
    (hb : before.states = [.active b])
    (hended : loader.states = [.ended (.error failure)]) :
    loader.Orderly resolver limit ∧ loader.registry = r ∧
      ∀ entry ∈ loader.flight.shared, entry ∈ f.shared ∧ entry.1 ∉ b.touched ∨
        loader.flight.answerOf entry.2 = none := by
  obtain ⟨horderly, hsingle⟩ := (Loader.Orderly.start hc hsound [identifiers]).follow
    (kept_single resolver limit r identifiers) (Or.inl ⟨_, rfl, rfl, Relation.ReflTransGen.refl⟩) hf
  obtain ⟨hregistry, hresolutions, hshared⟩ := horderly.ends_in_failure (i := 0) hnext
    (by rw [hb]; rfl) (by rw [hended]; rfl)
  refine ⟨horderly.next hnext, ?_, fun entry hentry => ?_⟩
  · rcases hsingle with ⟨b', -, hr, -⟩ | ⟨result, he, -⟩
    · exact hregistry.trans hr
    · rw [hb] at he
      cases he
  · have hanswer : loader.flight.answerOf entry.2 = before.flight.answerOf entry.2 := by
      rw [Flight.answerOf, hresolutions, Flight.answerOf]
    obtain ⟨hbefore, hunanswered⟩ := (hshared entry).1 hentry
    by_cases htouched : entry.1 ∈ b.touched
    · exact Or.inr (hanswer.trans (hunanswered htouched))
    · have hold := Loader.mem_shared_of_single hc hsound hf hb hbefore
      exact Or.inl ⟨hold.resolve_right htouched, htouched⟩

/-- Where everything is answered nothing is shared that has no answer. -/
theorem shared_eq_nil
    (h : loader.Orderly resolver limit)
    (hpending : loader.flight.pending = [])
    (hleft : ∀ entry ∈ loader.flight.shared, loader.flight.answerOf entry.2 = none) :
    loader.flight.shared = [] := by
  refine List.eq_nil_iff_forall_not_mem.2 fun entry hentry => ?_
  have hnumbered := h.sound.numbered entry hentry
  have hin := Flight.mem_pending_iff.2 ⟨Flight.identifierOf_lt hnumbered, hleft entry hentry⟩
  simp [hpending] at hin

end Left

/-- At any moment that is reached, with nothing on its way, let loads begin with any resolutions of the
resolver in flight, and let the events come in any order.

With the event with which a load fails the registry stays as it was, nothing is asked for, and of what is
shared the load prunes what it has asked for and is answered.  So a load alone leaves the registry as it was
before it began, and it leaves nothing shared but what was shared before and it has not asked for, and what
has no answer yet.

If nothing was shared when a load alone began, and nothing is without an answer when it fails, then nothing
is shared, and whatever loads begin later, with whatever resolver, go through what they go through with a
new loader at the registry from before.  And a load that fails with a loader of its own leaves the type
system as it was, so that any session after it goes as if it had not been made. -/
theorem failed_load_leaves_no_trace
    {s : TypeSystem}
    (hs : s.moment.Reached) :
    (∀ (resolver : Resolver) (limit : Option Number) (f : Flight), f.Sound (resolver.settle limit) →
      (∀ groups events before event loader (i : Nat) (b : Batch) failure,
        (Loader.start s.registry f groups).follow? (resolver.settle limit) events = some before →
        before.next? (resolver.settle limit) event = some loader →
        before.states[i]? = some (.active b) →
        loader.states[i]? = some (.ended (.error failure)) →
        loader.registry = before.registry ∧ loader.requests = before.requests ∧
          ∀ entry, entry ∈ loader.flight.shared ↔ entry ∈ before.flight.shared ∧
            (entry.1 ∈ b.touched → before.flight.answerOf entry.2 = none)) ∧
      ∀ identifiers events before event loader (b : Batch) failure,
        (Loader.start s.registry f [identifiers]).follow? (resolver.settle limit) events =
          some before →
        before.next? (resolver.settle limit) event = some loader →
        before.states = [.active b] → loader.states = [.ended (.error failure)] →
        loader.registry = s.registry ∧
        (∀ entry ∈ loader.flight.shared, entry ∈ f.shared ∧ entry.1 ∉ b.touched ∨
          loader.flight.answerOf entry.2 = none) ∧
        (f.shared = [] → loader.flight.pending = [] → loader.flight.shared = [] ∧
          ∀ (later : Resolver) (limit' : Option Number) groups t,
            (∃ events', (Loader.start loader.registry loader.flight groups).follow?
              (later.settle limit') events' = some t) ↔
            ∃ events' new, (Loader.start s.registry .empty groups).follow?
              (later.settle limit') events' = some new ∧ t = new.after loader.flight.resolutions)) ∧
    ∀ action : Action, action.LoadsAlone → (s.perform action).2.Failed →
      (s.perform action).1 = s ∧
        ∀ later, (s.perform action).1.performAll later = s.performAll later := by
  have hrest : s.AtRest := atRest_of_reached hs
  refine ⟨fun resolver limit f hsound => ⟨?_, ?_⟩, fun action ha hf => ?_⟩
  · intro groups events before event loader i b failure hf hnext hb hended
    have horderly := ((Loader.Orderly.start hrest.coherent hsound groups).follow
      (Run.Kept.nothing resolver limit) trivial hf).1
    obtain ⟨hregistry, hresolutions, hshared⟩ := horderly.ends_in_failure hnext hb hended
    refine ⟨hregistry, ?_, hshared⟩
    simp only [Loader.requests, Flight.requests, hresolutions]
  · intro identifiers events before event loader b failure hf hnext hb hended
    obtain ⟨horderly, hsame, hleft⟩ := left_of_single hrest.coherent hsound hf hnext hb hended
    refine ⟨hsame, hleft, fun hnone hpending => ?_⟩
    have hempty := shared_eq_nil horderly hpending fun entry hentry =>
      (hleft entry hentry).resolve_left (by simp [hnone])
    refine ⟨hempty, fun later limit' groups t => ?_⟩
    rw [hsame]
    exact Loader.start_anew_iff hempty hpending s.registry groups
  · have hsame := hrest.perform_failed ha hf
    exact ⟨hsame, fun later => by rw [hsame]⟩

/-- A table with an application but without the library that it depends on. -/
def applicationAlone : AnswerTable :=
  [("app", .source (.value (.object [("name", .string "app"), ("version", .string "1"),
    ("dependencies", .array [.string "lib"])])))]

/-- Loading the application fails in its second wave, when its manifest is there already, and leaves nothing
that is shared. -/
theorem failed_load_leaves_no_trace_of_application :
    let s := after [.promoteRoot "app"]
    let resolver := AnswerTable.resolver applicationAlone
    let load := Action.load resolver none "app"
    s.moment.Reached ∧ Flight.empty.Sound (resolver.settle none) ∧
    (∃ before loader b, (Loader.start s.registry .empty [["app"]]).follow? (resolver.settle none)
          [.requests 0, .answers 0, .resumes 0, .requests 0, .answers 1] = some before ∧
        before.next? (resolver.settle none) (.fails 0 1) = some loader ∧
        before.states = [.active b] ∧ loader.states = [.ended (.error (.notRegistered "lib"))] ∧
        loader.registry = s.registry ∧ loader.flight.shared = []) ∧
      load.LoadsAlone ∧ (s.perform load).2.Failed ∧ (s.perform load).1 = s ∧
      ∀ later, (s.perform load).1.performAll later = s.performAll later := by
  intro s resolver load
  have hreached := reached_after [.promoteRoot "app"]
  obtain ⟨hloader, hsession⟩ := failed_load_leaves_no_trace hreached
  have hsound := Flight.sound_empty (resolver.settle none)
  have hresult : (s.load resolver none "app").2.result = .error (.notRegistered "lib") := by
    unfold s resolver
    cbv
  have hfacts : ((Loader.start s.registry .empty [["app"]]).follow? (resolver.settle none)
      [.requests 0, .answers 0, .resumes 0, .requests 0, .answers 1]).bind (fun before =>
        (before.next? (resolver.settle none) (.fails 0 1)).map fun loader =>
          (before.isDone, before.loads.length, loader.states, loader.flight.pending)) =
      some (false, 1, [.ended (.error (.notRegistered "lib"))], []) := by
    unfold s resolver
    cbv
  obtain ⟨before, hbefore, hrest⟩ := Option.bind_eq_some_iff.1 hfacts
  obtain ⟨loader, hnext, hvalues⟩ := Option.map_eq_some_iff.1 hrest
  simp only [Prod.mk.injEq] at hvalues
  obtain ⟨hdone, hlength, hended, hpending⟩ := hvalues
  obtain ⟨b, hb⟩ : ∃ b, before.states = [.active b] := by
    obtain ⟨⟨state, awaited⟩, hone⟩ := List.length_eq_one_iff.1 hlength
    cases state with
    | active b => exact ⟨b, by simp [Loader.states, hone]⟩
    | ended result => simp [Loader.isDone, hone] at hdone
  obtain ⟨hregistry, -, hclean⟩ :=
    (hloader resolver none .empty hsound).2 ["app"] _ before _ loader b _ hbefore hnext hb hended
  have hf : (s.perform load).2.Failed := ⟨_, hresult⟩
  exact ⟨hreached, hsound, ⟨before, loader, b, hbefore, hnext, hb, hended, hregistry,
    (hclean rfl hpending).1⟩, trivial, hf, hsession load trivial hf⟩

/-- A manifest of one name and some version. -/
def goodOfVersion (version : String) : AnswerTable :=
  [("good", .source (.value (.object [("name", .string "good"), ("version", .string version)])))]

/-- A table with an application that depends on two assemblies for which no answer ever comes. -/
def unansweredLibraries : AnswerTable :=
  [("app", .source (.value (.object [("name", .string "app"), ("version", .string "1"),
    ("dependencies", .array [.string "other", .string "slow"])]))),
   ("slow", .never), ("other", .never)]

/-- A load can leave a trace when it fails.  The first one here fails with a missing manifest while the
other manifest is on its way.  When that is answered the manifest is shared, and a later load takes it
without asking for it; so it does not see that another version has taken its place.

Groups that are loaded together can tell as well: the application fails with the library that a group
before it had asked for, and without this group it fails with the other one. -/
theorem trace_of_failed_load :
    (∃ left later : Loader,
      (Loader.start empty.registry .empty [["missing", "good"]]).follow?
        ((AnswerTable.resolver (goodOfVersion "1")).settle none)
        [.requests 0, .answers 0, .forgets 0, .fails 0 0, .answers 1] = some left ∧
      left.results = [.error (.notRegistered "missing")] ∧
      (Loader.start left.registry left.flight [["good"]]).follow?
        ((AnswerTable.resolver (goodOfVersion "2")).settle none) [.requests 0, .resumes 0] =
          some later ∧
      later.requests = left.requests ∧
      later.registry.catalog.assemblies.map Manifest.version = ["1"] ∧
      (empty.loadRoots (AnswerTable.resolver (goodOfVersion "2")) none
        ["good"]).1.catalog.assemblies.map Manifest.version = ["2"]) ∧
    ∃ limit : Option Number,
      (empty.loadTogether (AnswerTable.resolver unansweredLibraries) limit
        [["missing", "slow"], ["app"]]).2.result =
          [.error (.notRegistered "missing"), .error (.timedOut "slow" limit)] ∧
      (empty.loadTogether (AnswerTable.resolver unansweredLibraries) limit [["app"]]).2.result =
        [.error (.timedOut "other" limit)] := by
  constructor
  · have hfacts : (((Loader.start empty.registry .empty [["missing", "good"]]).follow?
        ((AnswerTable.resolver (goodOfVersion "1")).settle none)
        [.requests 0, .answers 0, .forgets 0, .fails 0 0, .answers 1]).bind fun left =>
        ((Loader.start left.registry left.flight [["good"]]).follow?
          ((AnswerTable.resolver (goodOfVersion "2")).settle none) [.requests 0, .resumes 0]).map
            fun later => (left.results, left.requests, later.requests,
              later.registry.catalog.assemblies.map Manifest.version)) =
        some ([.error (.notRegistered "missing")], ["missing", "good"], ["missing", "good"], ["1"]) := by
      cbv
    obtain ⟨left, hleft, hlater⟩ := Option.bind_eq_some_iff.1 hfacts
    obtain ⟨later, hlater, hvalues⟩ := Option.map_eq_some_iff.1 hlater
    simp only [Prod.mk.injEq] at hvalues
    obtain ⟨hresults, hleftRequests, hlaterRequests, hversions⟩ := hvalues
    refine ⟨left, later, hleft, hresults, hlater, hlaterRequests.trans hleftRequests.symm, hversions, ?_⟩
    cbv
  · refine ⟨some (.real (.finite false 1 0)), ?_, ?_⟩
    · cbv
    · cbv

end TypeSystem
end TypeGraph
