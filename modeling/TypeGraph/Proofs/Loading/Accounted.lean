import TypeGraph.Proofs.Loading.Requests
import TypeGraph.Proofs.Loading.Supplied

/-!
# What is asked for again

An identifier that has been asked for is shared from then on, until a load that asked for it ends.  If this
load succeeds, the assembly of the manifest is committed with it.  So, unless a load fails, an identifier
is asked for again only when its assembly is committed.

**Results.**
* `Loader.Accounted.next`: what has been asked for is shared or committed, unless it cannot be loaded.
* `Loader.committed_of_asked_again`: where every load succeeds, what is asked for again is committed.
* `Loader.asks_of_single`: one load alone asks for nothing that is committed, and for nothing again.
* `Loader.Orderly.requests_nodup`: where nothing is asked for again, all requests are different.
* `Loop.follow_complete`: the loop runs the loads as some events that begin with all of their roots.
-/

namespace TypeGraph
namespace Loader

/-- Each resolution is awaited by a load, or answered with a manifest.  What has been asked for is shared,
cannot be loaded, or is committed with a load that has ended, by the name of its manifest. -/
structure Accounted (answer : String → Except Failure Manifest) (s : Loader) : Prop where
  answered : ∀ number < s.flight.resolutions.length,
    (∃ (i : Nat) (b : Batch) (numbers : List Nat),
      s.loads[i]? = some ⟨.active b, some numbers⟩ ∧ number ∈ numbers) ∨
      ∃ m, s.flight.answerOf number = some (.ok m)
  kept : ∀ identifier ∈ s.requests, (∃ number, s.flight.shared.lookup identifier = some number) ∨
    (∃ failure, answer identifier = .error failure) ∨
      s.ended ≠ [] ∧ ∃ m, answer identifier = .ok m ∧ s.registry.catalog.hasAssembly m.name = true

section Accounted

variable {resolver : Resolver} {limit : Option Number} {s s' : Loader} {i number : Nat} {b : Batch}

theorem accounted_start
    (answer : String → Except Failure Manifest)
    (r : TypeRegistry)
    (groups : List (List String)) :
    (start r .empty groups).Accounted answer where
  answered number hn := by simp [start, Flight.empty] at hn
  kept identifier hi := by simp [start, Flight.empty, Loader.requests, Flight.requests] at hi

/-- A load that asks for its wave waits for what it is given. -/
theorem Accounted.requests
    (h : s.Accounted (resolver.settle limit))
    (ho : s.Orderly resolver limit)
    (hs : s.request? i = some s') :
    s'.Accounted (resolver.settle limit) := by
  obtain ⟨b, hl, rfl⟩ := request?_eq_some_iff.1 hs
  have hlt := (List.getElem?_eq_some_iff.1 hl).1
  constructor
  · intro number hn
    rcases Flight.lt_or_mem_fetchAll hn with hold | hgiven
    · refine (h.answered number hold).imp ?_ ?_
      · rintro ⟨j, b', numbers, hj, hmem⟩
        have hij : i ≠ j := by
          rintro rfl
          rw [hl] at hj
          cases hj
        exact ⟨j, b', numbers, by rwa [List.getElem?_set_ne hij], hmem⟩
      · rintro ⟨m, hm⟩
        exact ⟨m, by rwa [Flight.answerOf_fetchAll]⟩
    · exact Or.inl ⟨i, b, _, List.getElem?_set_self hlt, hgiven⟩
  · intro identifier hi
    by_cases hwave : identifier ∈ b.wave
    · exact Or.inl (Flight.exists_lookup_fetchAll hwave)
    · have hold : identifier ∈ s.requests := by
        have hi : identifier ∈ (s.flight.fetchAll b.wave).1.requests := hi
        rw [Flight.requests_fetchAll (ho.lawful b (mem_states hl)).wave_nodup, List.mem_append] at hi
        exact hi.resolve_right fun hnew => hwave (List.mem_filter.1 hnew).1
      refine (h.kept identifier hold).imp_left ?_
      rintro ⟨number, hshared⟩
      exact ⟨number, Flight.lookup_fetchAll hshared b.wave⟩

theorem Accounted.answers
    (h : s.Accounted (resolver.settle limit))
    {f : Flight}
    (hf : s.flight.answer? (resolver.settle limit) number = some f) :
    Accounted (resolver.settle limit) { s with flight := f } := by
  have hanswer := (Flight.within_answer hf).answer
  have hidentifier := Flight.identifierOf_answer hf
  obtain ⟨asked, -, rfl⟩ := Flight.answer?_eq_some_iff.1 hf
  constructor
  · intro other ho
    refine (h.answered other (by simpa using ho)).imp_right ?_
    rintro ⟨m, hm⟩
    exact ⟨m, hanswer _ _ hm⟩
  · intro identifier hi
    refine h.kept identifier ?_
    obtain ⟨other, hother⟩ := Flight.mem_requests_iff.1 hi
    exact Flight.mem_requests_iff.2 ⟨other, by rw [← hidentifier, hother]⟩

/-- What is forgotten cannot be loaded. -/
theorem Accounted.forgets
    (h : s.Accounted (resolver.settle limit))
    (ho : s.Orderly resolver limit)
    {f : Flight}
    (hf : s.flight.forget? number = some f) :
    Accounted (resolver.settle limit) { s with flight := f } := by
  obtain ⟨⟨failure, hfailure⟩, rfl⟩ := Flight.forget?_eq_some_iff.1 hf
  refine ⟨h.answered, fun identifier hi => ?_⟩
  rcases h.kept identifier hi with ⟨other, hother⟩ | hkept
  · by_cases he : other = number
    · subst he
      have hnumbered := ho.sound.numbered _ (Flight.mem_shared_of_lookup hother)
      have hans := ho.sound.truthful _ _ _ hnumbered (Flight.failureOf_eq_some_iff.1 hfailure)
      exact Or.inr (Or.inl ⟨failure, hans.symm⟩)
    · exact Or.inl ⟨other, List.lookup_filter_of_pos hother (by simpa using he)⟩
  · exact Or.inr hkept

/-- Other loads still wait for what they have waited for when a load has its turn, and what it has waited
for itself is answered. -/
theorem Accounted.answered_turned
    (h : s.Accounted (resolver.settle limit))
    {numbers : List Nat}
    (hl : s.loads[i]? = some ⟨.active b, some numbers⟩)
    (hm : ∀ number ∈ numbers, ∃ m, s.flight.answerOf number = some (.ok m))
    (load : Load) :
    ∀ number < s.flight.resolutions.length,
      (∃ (j : Nat) (b' : Batch) (numbers : List Nat),
        (s.loads.set i load)[j]? = some ⟨.active b', some numbers⟩ ∧ number ∈ numbers) ∨
        ∃ m, s.flight.answerOf number = some (.ok m) := by
  intro number hn
  rcases h.answered number hn with ⟨j, b', numbers', hj, hmem⟩ | hans
  · by_cases hij : i = j
    · subst hij
      rw [hl] at hj
      cases hj
      exact Or.inr (hm number hmem)
    · exact Or.inl ⟨j, b', numbers', by rwa [List.getElem?_set_ne hij], hmem⟩
  · exact Or.inr hans

/-- A load has failed when it has ended with a failure. -/
theorem failing_turned
    {awaited : Option (List Nat)}
    (hl : s.loads[i]? = some ⟨.active b, awaited⟩)
    (r : TypeRegistry)
    (failure : Failure) :
    (s.turned i b (r, .ended (.error failure))).Failing := by
  refine ⟨failure, ?_⟩
  rw [turned_states]
  exact List.mem_set (List.getElem?_eq_some_iff.1 (getElem?_states hl)).1 _

/-- A load that resumes fails, or what has been asked for is shared or committed still: of what it has
waited for all assemblies are committed when it succeeds. -/
theorem Accounted.resumes
    (h : s.Accounted (resolver.settle limit))
    (ho : s.Orderly resolver limit)
    (hsupplied : ∀ b, .active b ∈ s.states → b.Supplied (resolver.settle limit) s.registry.catalog)
    (hs : s.resume? i = some s') :
    s'.Failing ∨ s'.Accounted (resolver.settle limit) := by
  obtain ⟨b, numbers, manifests, hl, hm, rfl⟩ := resume?_eq_some_iff.1 hs
  have hans := ho.sound.manifests (ho.awaits i b numbers hl) hm
  have hlawful := ho.lawful b (mem_states hl)
  have hanswered := h.answered_turned hl fun number hn => by
    obtain ⟨m, -, hmanifest⟩ := exists_of_mem_forall₂ (mapM_eq_some_iff.1 hm).flip hn
    exact ⟨m, Flight.manifestOf_eq_some_iff.1 hmanifest⟩
  rcases Run.proceed_cases (r := s.registry) hans with
    ⟨failure, -, hp⟩ | ⟨next, hmoves, ⟨-, hp⟩ | ⟨d, hw, hd, hp⟩⟩
  · rw [hp]
    exact Or.inl (failing_turned hl _ _)
  · rw [hp]
    exact Or.inr ⟨hanswered _, h.kept⟩
  · rw [hp]
    have hi := ho.coherent.toIndexed
    rcases Run.settle_cases ((hmoves.lawful hlawful).learned d hd) hi with
      ⟨failure, -, he⟩ | ⟨batch, after, found, hlink, hpub, -, he⟩
    · rw [he]
      exact Or.inl (failing_turned hl _ _)
    · rw [he]
      refine Or.inr ⟨hanswered _, fun identifier hr => ?_⟩
      have hended : s.ended ++ [i] ≠ [] := by simp
      rcases h.kept identifier hr with ⟨number, hshared⟩ | hfailed | ⟨-, m, hok, hc⟩
      · by_cases htouched : b.touched.contains identifier && (s.flight.answerOf number).isSome
        · -- the load that ends has accounted for all that it has waited for
          rw [Bool.and_eq_true, List.contains_iff_mem] at htouched
          have hnext : identifier ∈ next.touched := by simp [hmoves.keeps.2, htouched.1]
          have hsupply := (hsupplied b (mem_states hl)).moves hmoves
          obtain ⟨m, hok, hsup⟩ := (hsupply.touched d hd identifier hnext).resolve_left (by simp [hw])
          exact Or.inr (Or.inr ⟨hended, m, hok, hpub.hasAssembly_of_supplies hi
            ((hmoves.lawful hlawful).learned d hd) hlink hsup⟩)
        · exact Or.inl ⟨number,
            List.lookup_filter_of_pos hshared (by simpa [imp_iff_not_or] using htouched)⟩
      · exact Or.inr (Or.inl hfailed)
      · exact Or.inr (Or.inr ⟨hended, m, hok, hpub.within m.name hc⟩)

/-- Every event keeps account of what has been asked for, unless a load fails. -/
theorem Accounted.next
    (h : s.Accounted (resolver.settle limit))
    (ho : s.Orderly resolver limit)
    (hsupplied : ∀ b, .active b ∈ s.states → b.Supplied (resolver.settle limit) s.registry.catalog)
    {event : Event}
    (hs : s.next? (resolver.settle limit) event = some s') :
    s'.Failing ∨ s'.Accounted (resolver.settle limit) := by
  cases event with
  | requests i => exact Or.inr (h.requests ho hs)
  | answers number =>
      obtain ⟨f, hf, rfl⟩ := Option.map_eq_some_iff.1 hs
      exact Or.inr (h.answers hf)
  | forgets number =>
      obtain ⟨f, hf, rfl⟩ := Option.map_eq_some_iff.1 hs
      exact Or.inr (h.forgets ho hf)
  | resumes i => exact h.resumes ho hsupplied hs
  | fails i number =>
      obtain ⟨b, numbers, failure, hl, -, -, rfl⟩ := fail?_eq_some_iff.1 hs
      exact Or.inl (failing_turned hl _ _)

/-- A load that has ended has ended for good. -/
theorem Orderly.ended_next
    (h : s.Orderly resolver limit)
    {event : Event}
    (hs : s.next? (resolver.settle limit) event = some s')
    {result : Except Failure (List Manifest)}
    (hended : s.states[i]? = some (.ended result)) :
    s'.states[i]? = some (.ended result) := by
  rcases h.next_cases hs with ⟨j, b, awaited, r, state, -, hl, -, rfl⟩ | ⟨-, -, -, hstates⟩
  · have hij : j ≠ i := by
      rintro rfl
      rw [getElem?_states hl] at hended
      cases hended
    rwa [turned_states, List.getElem?_set_ne hij]
  · rwa [hstates]

theorem Orderly.ended_follow
    (h : s.Orderly resolver limit)
    {events : List Event}
    (hf : s.follow? (resolver.settle limit) events = some s')
    {result : Except Failure (List Manifest)}
    (hended : s.states[i]? = some (.ended result)) :
    s'.states[i]? = some (.ended result) :=
  (follow?_induction
    (I := fun s => s.Orderly resolver limit ∧ s.states[i]? = some (.ended result))
    (fun _ _ _ hI hs => ⟨hI.1.next hs, hI.1.ended_next hs hI.2⟩) ⟨h, hended⟩ hf).2

/-- A load that succeeds in the end goes on from where it is now. -/
theorem Orderly.exists_moves
    (h : s.Orderly resolver limit)
    {events : List Event}
    (hf : s.follow? (resolver.settle limit) events = some s')
    (hactive : s.states[i]? = some (.active b))
    {found : List Manifest}
    (hended : s'.states[i]? = some (.ended (.ok found))) :
    ∃ c next, b.Moves (resolver.settle limit) c next := by
  induction events generalizing s with
  | nil =>
      cases hf
      rw [hactive] at hended
      cases hended
  | cons event rest ih =>
      obtain ⟨middle, hnext, hrest⟩ := follow?_cons_eq_some_iff.1 hf
      have hmiddle := h.next hnext
      rcases h.next_cases hnext with ⟨j, b', awaited, r, state, -, hl, ht, rfl⟩ | ⟨-, -, -, hstates⟩
      · by_cases hij : j = i
        · subst hij
          have hb := getElem?_states hl
          rw [hactive] at hb
          cases hb
          cases state with
          | active next => exact ⟨_, next, ht.active.2.1⟩
          | ended result =>
              have hresult : (s.turned j b (r, .ended result)).states[j]? = some (.ended result) := by
                rw [turned_states]
                exact List.getElem?_set_self (List.getElem?_eq_some_iff.1 hactive).1
              have hsame := hmiddle.ended_follow hrest hresult
              rw [hended] at hsame
              cases hsame
              rcases ht.ended with ⟨failure, -, he⟩ | ⟨next, d, hm, -⟩
              · cases he
              · exact ⟨_, next, hm⟩
        · refine ih hmiddle hrest ?_
          rwa [turned_states, List.getElem?_set_ne hij]
      · exact ih hmiddle hrest (hstates ▸ hactive)

end Accounted

/-- A batch is alone in a run of one group. -/
theorem alone_of_length
    {before after : List BatchState}
    {state : BatchState}
    (h : (before ++ state :: after).length ≤ 1) :
    before = [] ∧ after = [] := by
  rw [List.length_append, List.length_cons] at h
  exact ⟨List.length_eq_zero_iff.1 (by omega), List.length_eq_zero_iff.1 (by omega)⟩

section Lone

variable {resolver : Resolver} {limit : Option Number} {s : Loader} {i : Nat} {b : Batch}

theorem loads_of_lone
    {load : Load}
    (hlength : s.loads.length ≤ 1)
    (hl : s.loads[i]? = some load) :
    s.loads = [load] := by
  have hlt := (List.getElem?_eq_some_iff.1 hl).1
  obtain ⟨only, hone⟩ := List.length_eq_one_iff.1 (show s.loads.length = 1 by omega)
  rw [hone] at hl
  rw [hone, List.mem_singleton.1 (List.mem_of_getElem? hl)]

/-- As long as one load alone is on its way nothing has ended, and what it asks for is not committed. -/
theorem kept_lone
    (resolver : Resolver)
    (limit : Option Number) :
    Run.Kept resolver limit fun r ended states => states.length ≤ 1 ∧
      ∀ b, .active b ∈ states → ended = [] ∧ ∀ identifier ∈ b.wave,
        r.catalog.hasAssembly identifier = false := by
  constructor
  · rintro r ended before b after next - - ⟨hlength, hactive⟩ ht
    obtain ⟨rfl, rfl⟩ := alone_of_length hlength
    obtain ⟨-, hm, -⟩ := ht.active
    obtain ⟨hended, -⟩ := hactive b (by simp)
    refine ⟨by simp, fun b' hb' => ⟨hended, fun identifier hi => ?_⟩⟩
    obtain rfl : b' = next := by simpa using hb'
    exact hm.wave_new hi
  · rintro r ended before b after r' result - - ⟨hlength, -⟩ -
    obtain ⟨rfl, rfl⟩ := alone_of_length hlength
    simp

/-- One load alone shares what it has asked for, when it is about to ask: it waits for nothing then, so
all is answered, and it has not failed. -/
theorem Orderly.shared_of_lone
    (h : s.Orderly resolver limit)
    (ha : s.Failing ∨ s.Accounted (resolver.settle limit))
    (hlone : s.loads = [⟨.active b, none⟩])
    (hended : s.ended = [])
    {identifier : String}
    (hi : identifier ∈ s.requests) :
    ∃ number, s.flight.shared.lookup identifier = some number := by
  have haccounted := ha.resolve_left <| by
    rintro ⟨failure, hfailure⟩
    simp [states, hlone] at hfailure
  obtain ⟨number, hnumber⟩ := Flight.mem_requests_iff.1 hi
  rcases haccounted.answered number (Flight.identifierOf_lt hnumber) with
    ⟨j, b', numbers, hj, -⟩ | ⟨m, hm⟩
  · have hload := List.mem_of_getElem? hj
    simp [hlone] at hload
  · have hok := h.sound.truthful number identifier _ hnumber hm
    rcases haccounted.kept identifier hi with hshared | ⟨failure, hfailed⟩ | ⟨hsome, -⟩
    · exact hshared
    · rw [hfailed] at hok
      cases hok
    · exact absurd hended hsome

end Lone

section Runs

variable {resolver : Resolver} {limit : Option Number} {r : TypeRegistry}
  {groups : List (List String)} (hc : r.catalog.Coherent)
include hc

/-- Unless a load has failed, what has been asked for is accounted for after any events. -/
theorem accounted_follow
    {events : List Event}
    {s : Loader}
    (hf : (start r .empty groups).follow? (resolver.settle limit) events = some s) :
    s.Failing ∨ s.Accounted (resolver.settle limit) := by
  have hstart : (start r .empty groups).Orderly resolver limit :=
    .start hc (Flight.sound_empty _) groups
  refine (follow?_induction
    (I := fun s => (s.Orderly resolver limit ∧ ∀ b, .active b ∈ s.states →
      b.Supplied (resolver.settle limit) s.registry.catalog) ∧
        (s.Failing ∨ s.Accounted (resolver.settle limit)))
    (fun s event s' hI hs => ?_) ⟨⟨hstart, ?_⟩, Or.inr (accounted_start _ r groups)⟩ hf).2
  · obtain ⟨⟨ho, hsupplied⟩, hfailing | haccounted⟩ := hI
    · refine ⟨⟨ho.next hs, ho.next_kept (Run.kept_supplied resolver limit) hsupplied hs⟩, Or.inl ?_⟩
      obtain ⟨failure, hfailure⟩ := hfailing
      obtain ⟨i, hi⟩ := List.mem_iff_getElem?.1 hfailure
      exact ⟨failure, List.mem_of_getElem? (ho.ended_next hs hi)⟩
    · exact ⟨⟨ho.next hs, ho.next_kept (Run.kept_supplied resolver limit) hsupplied hs⟩,
        haccounted.next ho hsupplied hs⟩
  · rw [Loop.states_start]
    exact Run.supplied_start _ _ groups

section Asked

variable {before : List Event} {s : Loader} {event : Event} {identifier : String}
  (hf : (start r .empty groups).follow? (resolver.settle limit) before = some s)
  (ha : identifier ∈ s.asks event)
include hf ha

/-- What is asked for though it is committed was not committed when the load decided to ask for it. -/
theorem asked_when_committed :
    ∃ i b earlier later middle, event = .requests i ∧ identifier ∈ b.wave ∧
      before = earlier ++ later ∧ .requests i ∉ later ∧
      (start r .empty groups).follow? (resolver.settle limit) earlier = some middle ∧
      middle.loads[i]? = some ⟨.active b, none⟩ ∧ s.loads[i]? = some ⟨.active b, none⟩ ∧
      middle.registry.catalog.hasAssembly identifier = false := by
  obtain ⟨i, b, rfl, hl, hw, -⟩ := exists_of_mem_asks ha
  have hstart : (start r .empty groups).Orderly resolver limit :=
    .start hc (Flight.sound_empty _) groups
  have hnew : ∀ (i : Nat) (b : Batch), (start r .empty groups).loads[i]? = some ⟨.active b, none⟩ →
      ∀ identifier ∈ b.wave, r.catalog.hasAssembly identifier = false := by
    intro j b' hj identifier hi
    rw [Loader.start, List.getElem?_map] at hj
    obtain ⟨identifiers, -, he⟩ := Option.map_eq_some_iff.1 hj
    cases he
    exact (Batch.mem_firstWave_iff.1 hi).2
  obtain ⟨earlier, later, middle, rfl, hmiddle, hnot, hdecided, hwave⟩ :=
    exists_decision hstart hnew hf hl
  exact ⟨i, b, earlier, later, middle, rfl, hw, rfl, hnot, hmiddle, hdecided, hl,
    hwave identifier hw⟩

/-- Where every load succeeds in the end, what is asked for again has an assembly that is committed.  It is
committed under the identifier itself, unless this is asked for as a root, after the end of a load. -/
theorem committed_of_asked_again
    {next last : Loader}
    {rest : List Event}
    (hs : s.next? (resolver.settle limit) event = some next)
    (hlast : next.follow? (resolver.settle limit) rest = some last)
    (hall : last.AllLoaded)
    (hagain : identifier ∈ s.requests) :
    (∃ m, resolver.settle limit identifier = .ok m ∧
      s.registry.catalog.hasAssembly m.name = true) ∧
    (s.registry.catalog.hasAssembly identifier = true ∨ s.ended ≠ [] ∧ ∃ i b, event = .requests i ∧
      s.loads[i]? = some ⟨.active b, none⟩ ∧ b.discovery = none) := by
  obtain ⟨i, b, rfl, hl, hw, hnone⟩ := exists_of_mem_asks ha
  have horderly := ((Orderly.start hc (Flight.sound_empty _) groups).follow
    (Run.Kept.nothing resolver limit) trivial hf).1
  have hwhole : s.follow? (resolver.settle limit) (.requests i :: rest) = some last :=
    follow?_cons_eq_some_iff.2 ⟨next, hs, hlast⟩
  have hactive := getElem?_states hl
  -- the load that asks goes on with the answers to its wave, since it succeeds in the end
  have hmoves : ∃ c next, b.Moves (resolver.settle limit) c next := by
    have hlength : last.states.length = s.states.length :=
      (horderly.follow (.length resolver limit s.states.length) rfl hwhole).2
    have hlt : i < last.states.length := hlength ▸ (List.getElem?_eq_some_iff.1 hactive).1
    have hstate := List.getElem?_eq_getElem hlt
    obtain ⟨found, he⟩ := hall _ (List.getElem_mem hlt)
    rw [he] at hstate
    exact horderly.exists_moves hwhole hactive hstate
  obtain ⟨c, moved, manifests, hanswered, hadvance⟩ := hmoves
  have haccounted := (accounted_follow hc hf).resolve_left fun ⟨failure, hfailure⟩ => by
    obtain ⟨j, hj⟩ := List.mem_iff_getElem?.1 hfailure
    obtain ⟨found, hfound⟩ := hall _ (List.mem_of_getElem? (horderly.ended_follow hwhole hj))
    cases hfound
  rcases haccounted.kept identifier hagain with
    ⟨number, hshared⟩ | ⟨failure, hfailed⟩ | ⟨hended, m, hok, hcommitted⟩
  · rw [hnone] at hshared
    cases hshared
  · exact absurd hfailed (hanswered.no_failure hw failure)
  · refine ⟨⟨m, hok, hcommitted⟩, ?_⟩
    cases hd : b.discovery with
    | none => exact Or.inr ⟨hended, i, b, rfl, hl, hd⟩
    | some d =>
        obtain ⟨hnames, -⟩ := (Batch.advance_some hanswered.length_eq hd).1 hadvance
        rw [← hnames] at hw
        obtain ⟨n, hn, rfl⟩ := List.mem_map.1 hw
        rw [Batch.answer_name_of_mem hanswered hnames hn] at hok
        cases hok
        exact Or.inl hcommitted

/-- One load alone asks for nothing that is committed, and for nothing again. -/
theorem asks_of_single
    (hone : groups.length ≤ 1) :
    s.registry.catalog.hasAssembly identifier = false ∧ identifier ∉ s.requests := by
  obtain ⟨i, b, rfl, hl, hw, hnone⟩ := exists_of_mem_asks ha
  have hstart : (start r .empty groups).Orderly resolver limit :=
    .start hc (Flight.sound_empty _) groups
  obtain ⟨horderly, hlength, hactive⟩ := hstart.follow (kept_lone resolver limit) (by
    rw [Loop.states_start]
    refine ⟨by simpa using hone, fun b hb => ⟨rfl, fun identifier hi => ?_⟩⟩
    obtain ⟨identifiers, -, he⟩ := List.mem_map.1 hb
    cases he
    exact (Batch.mem_firstWave_iff.1 hi).2) hf
  obtain ⟨hended, hnew⟩ := hactive b (mem_states hl)
  refine ⟨hnew identifier hw, fun hagain => ?_⟩
  have hlone : s.loads = [⟨.active b, none⟩] := loads_of_lone (by simpa [states] using hlength) hl
  obtain ⟨number, hshared⟩ :=
    horderly.shared_of_lone (accounted_follow hc hf) hlone hended hagain
  rw [hnone] at hshared
  cases hshared

end Asked

omit hc in
/-- The loads ask for their roots one after the other, and none of them ends meanwhile. -/
theorem exists_opened
    (answer : String → Except Failure Manifest)
    (r : TypeRegistry)
    {count : Nat}
    (hcount : count ≤ groups.length) :
    ∃ s, (start r .empty groups).follow? answer ((List.range count).map .requests) = some s ∧
      s.ended = [] ∧ s.loads.length = groups.length ∧
      (∀ i, count ≤ i → i < groups.length → ∃ b, s.loads[i]? = some ⟨.active b, none⟩) ∧
      ∀ (i : Nat) (b : Batch), s.loads[i]? = some ⟨.active b, none⟩ → count ≤ i := by
  induction count with
  | zero =>
      refine ⟨_, rfl, rfl, by simp [start], fun i _ hi => ?_, by simp⟩
      exact ⟨.start r.catalog groups[i], by simp [start, opening, hi]⟩
  | succ count ih =>
      obtain ⟨s, hf, hended, hlength, hopen, hasked⟩ := ih (by omega)
      obtain ⟨b, hb⟩ := hopen count (Nat.le_refl _) hcount
      have hnext := request?_eq_some_iff.2 ⟨b, hb, rfl⟩
      refine ⟨{ s with
        flight := (s.flight.fetchAll b.wave).1
        loads := s.loads.set count ⟨.active b, some (s.flight.fetchAll b.wave).2⟩ }, ?_, hended,
        by simpa using hlength, fun i hle hi => ?_, fun i b' hi => ?_⟩
      · rw [List.range_succ, List.map_append, follow?_append, hf]
        exact follow?_cons_eq_some_iff.2 ⟨_, hnext, rfl⟩
      · have hne : count ≠ i := by omega
        rw [List.getElem?_set_ne hne]
        exact hopen i (by omega) hi
      · have hne : count ≠ i := by
          rintro rfl
          rw [List.getElem?_set_self (by omega)] at hi
          cases hi
        rw [List.getElem?_set_ne hne] at hi
        have := hasked i b' hi
        omega

/-- When all loads have asked for their roots, a load that is about to ask for a wave has its roots. -/
theorem discovered_of_openings
    {events : List Event}
    {s : Loader}
    (hf : (start r .empty groups).follow? (resolver.settle limit) (openings groups ++ events) = some s)
    {i : Nat}
    {b : Batch}
    (hl : s.loads[i]? = some ⟨.active b, none⟩) :
    b.discovery ≠ none := by
  obtain ⟨opened, hopened, -, hlength, -, hasked⟩ :=
    exists_opened (resolver.settle limit) r (Nat.le_refl groups.length)
  rw [follow?_append, openings, hopened] at hf
  have horderly := ((Orderly.start hc (Flight.sound_empty _) groups).follow
    (Run.Kept.nothing resolver limit) trivial hopened).1
  refine (follow?_induction (I := fun s => s.Orderly resolver limit ∧
    ∀ (i : Nat) (b : Batch), s.loads[i]? = some ⟨.active b, none⟩ → b.discovery ≠ none)
    (fun s event s' hI hs => ⟨hI.1.next hs, fun i b hl => ?_⟩)
    ⟨horderly, fun i b hl => ?_⟩ hf).2 i b hl
  · rcases decides hI.1 hs hl with ⟨hsame, -⟩ | ⟨before, hm⟩
    · exact hI.2 i b hsame
    · obtain ⟨d, hd⟩ := hm.exists_discovery
      simp [hd]
  · have := hasked i b hl
    have := (List.getElem?_eq_some_iff.1 hl).1
    omega

/-- Where all loads ask for their roots first and succeed in the end, what is asked for again is
committed. -/
theorem committed_of_openings
    {before after rest : List Event}
    {event : Event}
    {identifier : String}
    {s next last : Loader}
    (hopenings : before ++ event :: after = openings groups ++ rest)
    (hf : (start r .empty groups).follow? (resolver.settle limit) before = some s)
    (hs : s.next? (resolver.settle limit) event = some next)
    (hlast : next.follow? (resolver.settle limit) after = some last)
    (hall : last.AllLoaded)
    (ha : identifier ∈ s.asks event)
    (hagain : identifier ∈ s.requests) :
    s.registry.catalog.hasAssembly identifier = true := by
  rcases (committed_of_asked_again hc hf ha hs hlast hall hagain).2 with
    hcommitted | ⟨hended, i, b, rfl, hl, hd⟩
  · exact hcommitted
  · exfalso
    rcases List.append_eq_append_iff.1 hopenings with ⟨left, hleft, -⟩ | ⟨right, rfl, -⟩
    · -- the loads are asking for their roots, so none has ended
      have hprefix : before = (List.range before.length).map .requests ∧
          before.length ≤ groups.length := by
        have htake : before = (openings groups).take before.length := by simp [hleft]
        have hle : before.length ≤ groups.length := by
          have := congrArg List.length hleft
          simp only [openings, List.length_map, List.length_range, List.length_append] at this
          omega
        refine ⟨htake.trans ?_, hle⟩
        rw [openings, ← List.map_take, List.take_range, Nat.min_eq_left hle]
      obtain ⟨hbefore, hle⟩ := hprefix
      obtain ⟨opened, hopened, hnone, -⟩ := exists_opened (resolver.settle limit) r hle
      rw [hbefore, hopened] at hf
      cases hf
      exact hended hnone
    · exact discovered_of_openings hc hf hl hd

omit hc in
/-- Where nothing is asked for that has been asked for before, all requests are different. -/
theorem Orderly.requests_nodup
    {s s' : Loader}
    (h : s.Orderly resolver limit)
    (hnodup : s.requests.Nodup)
    {events : List Event}
    (hf : s.follow? (resolver.settle limit) events = some s')
    (hnew : ∀ before event after middle, events = before ++ event :: after →
      s.follow? (resolver.settle limit) before = some middle →
        ∀ identifier ∈ middle.asks event, identifier ∉ middle.requests) :
    s'.requests.Nodup := by
  induction events using List.reverseRecOn generalizing s' with
  | nil =>
      cases hf
      exact hnodup
  | append_singleton events event ih =>
      obtain ⟨middle, hmiddle, hnext⟩ := follow?_concat_eq_some_iff.1 hf
      have horderly := (h.follow (Run.Kept.nothing resolver limit) trivial hmiddle).1
      obtain ⟨hrequests, hasks⟩ := horderly.requests_next hnext
      have hbefore := ih hmiddle fun before e after middle' he hm =>
        hnew before e (after ++ [event]) middle' (by simp [he]) hm
      rw [hrequests]
      refine List.nodup_append.2 ⟨hbefore, hasks, ?_⟩
      rintro a hold b hasked rfl
      exact hnew events event [] middle rfl hmiddle a hasked hold

end Runs

end Loader

namespace Loop

variable {resolver : Resolver} {limit : Option Number}

/-- In a tick events happen in turn if they can. -/
theorem loader_foldl_pass
    {events : List Loader.Event}
    {loop : Loop}
    {s : Loader}
    (hf : loop.loader.follow? (resolver.settle limit) events = some s) :
    ((events.map fun event => (0, event)).foldl (pass resolver limit) loop).loader = s := by
  induction events generalizing loop with
  | nil =>
      cases hf
      rfl
  | cons event rest ih =>
      obtain ⟨middle, hnext, hrest⟩ := Loader.follow?_cons_eq_some_iff.1 hf
      refine ih ?_
      rw [pass, work, hnext]
      exact hrest

/-- The loop lets all loads ask for their roots first. -/
theorem follow_complete
    (resolver : Resolver)
    (limit : Option Number)
    (r : TypeRegistry)
    (groups : List (List String)) :
    ∃ rest, (Loader.start r .empty groups).follow? (resolver.settle limit)
      (Loader.openings groups ++ rest) = some (complete resolver limit r groups) := by
  obtain ⟨opened, hopened, -⟩ :=
    Loader.exists_opened (resolver.settle limit) r (Nat.le_refl groups.length)
  obtain ⟨count, hcount⟩ : ∃ count, enough resolver groups = count + 1 :=
    ⟨_, (Nat.succ_pred_eq_of_pos (by simp [enough])).symm⟩
  rw [complete, hcount, run]
  split
  · rename_i hdone
    have hnil : groups = [] := by
      cases groups with
      | nil => rfl
      | cons first rest => simp [Loader.isDone, start, Loader.start, Loader.opening] at hdone
    subst hnil
    exact ⟨[], rfl⟩
  · rename_i hdone
    have hqueue : (start r groups).queue =
        (Loader.openings groups).map fun event => (0, event) := by
      simp [start, Loader.openings, Function.comp_def]
    have htick : ((start r groups).tick resolver limit).loader = opened := by
      unfold tick
      split
      · rename_i hnil
        have hgroups : groups = [] := by simpa [start] using hnil
        subst hgroups
        exact absurd rfl hdone
      · rw [hqueue]
        exact loader_foldl_pass hopened
    obtain ⟨rest, hrest⟩ := follow_run resolver limit count ((start r groups).tick resolver limit)
    refine ⟨rest, ?_⟩
    rw [Loader.follow?_append, Loader.openings, hopened, ← htick]
    exact hrest

end Loop
end TypeGraph
