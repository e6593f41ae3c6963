import TypeGraph.Proofs.Loading.Progress

/-!
# What is asked for

When a load asks for its wave, those identifiers of it are asked for that are not shared.  A load has
decided on its wave before it asks for it, so an identifier can be asked for that another load has
committed since then; but it was not committed when the load decided.

**Results.**
* `Loader.Orderly.requests_next`: the requests of a run are what its events ask for.
* `Loader.exists_decision`: when a load asks for its wave there was a time when nothing of it was committed
  and the load was about to ask for it.
-/

namespace TypeGraph

/-- What a key leads to is not lost among the entries that are kept. -/
theorem List.lookup_filter_of_pos
    {α β : Type}
    [BEq α]
    [LawfulBEq α]
    {entries : List (α × β)}
    {p : α × β → Bool}
    {key : α}
    {value : β}
    (h : entries.lookup key = some value)
    (hp : p (key, value) = true) :
    (entries.filter p).lookup key = some value := by
  obtain ⟨before, after, rfl, hbefore⟩ := List.lookup_eq_some_iff.1 h
  rw [List.filter_append, List.filter_cons_of_pos hp]
  exact List.lookup_eq_some_iff.2
    ⟨_, _, rfl, fun entry hentry => hbefore entry (List.mem_filter.1 hentry).1⟩

namespace Flight

section Fetched

variable {f : Flight} {wave : List String} {identifier : String} {number : Nat}

theorem fetchAll_cons
    (f : Flight)
    (identifier : String)
    (rest : List String) :
    f.fetchAll (identifier :: rest) =
      (((f.fetch identifier).1.fetchAll rest).1,
        (f.fetch identifier).2 :: ((f.fetch identifier).1.fetchAll rest).2) :=
  rfl

theorem lookup_fetch_self
    (f : Flight)
    (identifier : String) :
    (f.fetch identifier).1.shared.lookup identifier = some (f.fetch identifier).2 := by
  rcases fetch_cases f identifier with ⟨number, hl, he⟩ | ⟨-, he⟩ <;> rw [he]
  · exact hl
  · exact List.lookup_cons_self

theorem lookup_fetch_of_ne
    {other : String}
    (h : other ≠ identifier) :
    (f.fetch identifier).1.shared.lookup other = f.shared.lookup other := by
  rcases fetch_cases f identifier with ⟨number, -, he⟩ | ⟨-, he⟩ <;> rw [he]
  simp [List.lookup_cons, beq_false_of_ne h]

/-- What is shared stays shared while more is asked for. -/
theorem lookup_fetchAll
    (h : f.shared.lookup identifier = some number)
    (wave : List String) :
    (f.fetchAll wave).1.shared.lookup identifier = some number := by
  induction wave generalizing f with
  | nil => exact h
  | cons first rest ih =>
      rw [fetchAll_cons]
      refine ih ?_
      rcases fetch_cases f first with ⟨found, -, he⟩ | ⟨hnone, -⟩
      · rwa [he]
      · rw [lookup_fetch_of_ne, h]
        rintro rfl
        rw [h] at hnone
        cases hnone

/-- What is asked for is shared. -/
theorem exists_lookup_fetchAll
    (h : identifier ∈ wave) :
    ∃ number, (f.fetchAll wave).1.shared.lookup identifier = some number := by
  induction wave generalizing f with
  | nil => cases h
  | cons first rest ih =>
      rw [fetchAll_cons]
      rcases List.mem_cons.1 h with rfl | h
      · exact ⟨_, lookup_fetchAll (lookup_fetch_self f identifier) rest⟩
      · exact ih h

theorem requests_fetch
    (f : Flight)
    (identifier : String) :
    (f.fetch identifier).1.requests =
      f.requests ++ if (f.shared.lookup identifier).isNone then [identifier] else [] := by
  rcases fetch_cases f identifier with ⟨number, hl, he⟩ | ⟨hl, he⟩ <;> rw [he] <;> simp [hl, requests]

/-- Resolutions are started for what is not shared. -/
theorem requests_fetchAll
    (hn : wave.Nodup) :
    (f.fetchAll wave).1.requests =
      f.requests ++ wave.filter fun identifier => (f.shared.lookup identifier).isNone := by
  induction wave generalizing f with
  | nil => simp [fetchAll]
  | cons first rest ih =>
      obtain ⟨hfirst, hrest⟩ := List.nodup_cons.1 hn
      have hsame : rest.filter (fun i => ((f.fetch first).1.shared.lookup i).isNone) =
          rest.filter fun i => (f.shared.lookup i).isNone := by
        refine List.filter_congr fun other hother => ?_
        have hne : other ≠ first := fun he => hfirst (he ▸ hother)
        rw [lookup_fetch_of_ne hne]
      rw [fetchAll_cons, ih hrest, hsame, requests_fetch, List.filter_cons, List.append_assoc]
      split <;> rfl

/-- A resolution of what has been asked for was there before, or is given to who asks. -/
theorem lt_or_mem_fetchAll
    (h : number < (f.fetchAll wave).1.resolutions.length) :
    number < f.resolutions.length ∨ number ∈ (f.fetchAll wave).2 := by
  induction wave generalizing f with
  | nil => exact Or.inl h
  | cons first rest ih =>
      rw [fetchAll_cons] at h ⊢
      rcases ih h with hlt | hmem
      · rcases fetch_cases f first with ⟨found, -, he⟩ | ⟨-, he⟩
        · rw [he] at hlt
          exact Or.inl hlt
        · rw [he] at hlt
          by_cases hlast : number = f.resolutions.length
          · refine Or.inr ?_
            simp [he, hlast]
          · refine Or.inl ?_
            rw [List.length_append, List.length_singleton] at hlt
            omega
      · exact Or.inr (List.mem_cons_of_mem _ hmem)

theorem mem_requests_iff :
    identifier ∈ f.requests ↔ ∃ number, f.identifierOf number = some identifier := by
  simp [requests, identifierOf, List.mem_iff_getElem?]

end Fetched

end Flight

namespace Loader

/-- What an event asks the resolver for. -/
def asks (s : Loader) : Event → List String
  | .requests i =>
      match s.loads[i]? with
      | some ⟨.active b, none⟩ =>
          b.wave.filter fun identifier => (s.flight.shared.lookup identifier).isNone
      | _ => []
  | _ => []

/-- Some load has failed. -/
def Failing (s : Loader) : Prop :=
  ∃ failure, .ended (.error failure) ∈ s.states

/-- Every load has succeeded. -/
def AllLoaded (s : Loader) : Prop :=
  ∀ state ∈ s.states, ∃ found, state = .ended (.ok found)

/-- Each load asks for its roots, in order. -/
def openings (groups : List (List String)) : List Event :=
  (List.range groups.length).map .requests

section Steps

variable {resolver : Resolver} {limit : Option Number} {s s' : Loader} {event : Event}
  {identifier : String}

/-- Who asks for something is a load that is about to ask for its wave. -/
theorem exists_of_mem_asks
    (h : identifier ∈ s.asks event) :
    ∃ i b, event = .requests i ∧ s.loads[i]? = some ⟨.active b, none⟩ ∧ identifier ∈ b.wave ∧
      s.flight.shared.lookup identifier = none := by
  unfold asks at h
  split at h
  · split at h
    · rename_i i _ b hl
      obtain ⟨hmem, hnone⟩ := List.mem_filter.1 h
      exact ⟨i, b, rfl, hl, hmem, by simpa using hnone⟩
    · cases h
  · cases h

/-- The requests of a run are what its events ask for. -/
theorem Orderly.requests_next
    (h : s.Orderly resolver limit)
    (hs : s.next? (resolver.settle limit) event = some s') :
    s'.requests = s.requests ++ s.asks event ∧ (s.asks event).Nodup := by
  cases event with
  | requests i =>
      obtain ⟨b, hl, rfl⟩ := request?_eq_some_iff.1 hs
      have hn := (h.lawful b (mem_states hl)).wave_nodup
      simp only [asks, hl]
      exact ⟨Flight.requests_fetchAll hn, hn.filter _⟩
  | answers number =>
      obtain ⟨f, hf, rfl⟩ := Option.map_eq_some_iff.1 hs
      obtain ⟨identifier, hi, rfl⟩ := Flight.answer?_eq_some_iff.1 hf
      have hsame : (s.flight.resolutions.set number
          ⟨identifier, some (resolver.settle limit identifier)⟩).map Resolution.identifier =
            s.flight.resolutions.map Resolution.identifier := by
        rw [List.map_set]
        refine set_of_getElem? ?_
        rw [List.getElem?_map, hi]
        rfl
      simpa [Loader.requests, Flight.requests, asks] using hsame
  | forgets number =>
      obtain ⟨f, hf, rfl⟩ := Option.map_eq_some_iff.1 hs
      obtain ⟨-, rfl⟩ := Flight.forget?_eq_some_iff.1 hf
      simp [Loader.requests, Flight.requests, asks]
  | resumes i =>
      obtain ⟨b, numbers, manifests, -, -, rfl⟩ := resume?_eq_some_iff.1 hs
      simp [asks]
  | fails i number =>
      obtain ⟨b, numbers, failure, -, -, -, rfl⟩ := fail?_eq_some_iff.1 hs
      simp [asks]

/-- A load that is about to ask for its wave was about to do so before the event, or it has just gone on to
this wave. -/
theorem decides
    (h : s.Orderly resolver limit)
    (hs : s.next? (resolver.settle limit) event = some s')
    {i : Nat}
    {b : Batch}
    (hl : s'.loads[i]? = some ⟨.active b, none⟩) :
    s.loads[i]? = some ⟨.active b, none⟩ ∧ event ≠ .requests i ∨
      ∃ before : Batch, before.Moves (resolver.settle limit) s'.registry.catalog b := by
  have hturned : ∀ {j : Nat} {b' : Batch} {awaited : Option (List Nat)} {r : TypeRegistry}
      {state : BatchState}, s.loads[j]? = some ⟨.active b', awaited⟩ →
      Run.Turn (resolver.settle limit) s.registry b' r state → event ≠ .requests i →
      s' = s.turned j b' (r, state) →
      s.loads[i]? = some ⟨.active b, none⟩ ∧ event ≠ .requests i ∨
        ∃ before : Batch, before.Moves (resolver.settle limit) s'.registry.catalog b := by
    rintro j b' awaited r state hj ht hevent rfl
    rw [turned_loads] at hl
    by_cases hij : j = i
    · subst hij
      rw [List.getElem?_set_self (List.getElem?_eq_some_iff.1 hj).1, Option.some.injEq,
        Load.mk.injEq] at hl
      obtain ⟨rfl, -⟩ := hl
      obtain ⟨rfl, hm, -⟩ := ht.active
      rw [turned_registry]
      exact Or.inr ⟨b', hm⟩
    · rw [List.getElem?_set_ne hij] at hl
      exact Or.inl ⟨hl, hevent⟩
  cases event with
  | requests j =>
      obtain ⟨b', hj, rfl⟩ := request?_eq_some_iff.1 hs
      by_cases hij : j = i
      · subst hij
        rw [List.getElem?_set_self (List.getElem?_eq_some_iff.1 hj).1] at hl
        cases hl
      · rw [List.getElem?_set_ne hij] at hl
        exact Or.inl ⟨hl, fun he => hij (Event.requests.inj he)⟩
  | answers number =>
      obtain ⟨f, -, rfl⟩ := Option.map_eq_some_iff.1 hs
      exact Or.inl ⟨hl, nofun⟩
  | forgets number =>
      obtain ⟨f, -, rfl⟩ := Option.map_eq_some_iff.1 hs
      exact Or.inl ⟨hl, nofun⟩
  | resumes j =>
      obtain ⟨b', awaited, r, state, hj, ht, he⟩ := h.turn_of_resume hs
      exact hturned hj ht nofun he
  | fails j number =>
      obtain ⟨b', awaited, r, state, hj, ht, he⟩ := h.turn_of_fail hs
      exact hturned hj ht nofun he

/-- When a load is about to ask for its wave, there was a time at which nothing of the wave was committed
and the load was about to ask for it too; and in between it has not asked. -/
theorem exists_decision
    (h : s.Orderly resolver limit)
    (hstart : ∀ (i : Nat) (b : Batch), s.loads[i]? = some ⟨.active b, none⟩ → ∀ identifier ∈ b.wave,
      s.registry.catalog.hasAssembly identifier = false)
    {events : List Event}
    (hf : s.follow? (resolver.settle limit) events = some s')
    {i : Nat}
    {b : Batch}
    (hl : s'.loads[i]? = some ⟨.active b, none⟩) :
    ∃ earlier later before, events = earlier ++ later ∧
      s.follow? (resolver.settle limit) earlier = some before ∧ .requests i ∉ later ∧
      before.loads[i]? = some ⟨.active b, none⟩ ∧
      ∀ identifier ∈ b.wave, before.registry.catalog.hasAssembly identifier = false := by
  -- by induction on the events from their end: the last one that was the load's own has decided
  induction events using List.reverseRecOn generalizing s' with
  | nil =>
      cases hf
      exact ⟨[], [], s, rfl, rfl, by simp, hl, hstart i b hl⟩
  | append_singleton events event ih =>
      obtain ⟨middle, hmiddle, hnext⟩ := follow?_concat_eq_some_iff.1 hf
      have horderly := (h.follow (Run.Kept.nothing resolver limit) trivial hmiddle).1
      rcases decides horderly hnext hl with ⟨hsame, hevent⟩ | ⟨decided, hm⟩
      · obtain ⟨earlier, later, before, rfl, hbefore, hnot, hdecided, hwave⟩ := ih hmiddle hsame
        refine ⟨earlier, later ++ [event], before, List.append_assoc .., hbefore, ?_, hdecided, hwave⟩
        simpa [hnot] using hevent.symm
      · exact ⟨events ++ [event], [], s', by simp, hf, by simp, hl, fun identifier => hm.wave_new⟩

end Steps

end Loader
end TypeGraph
