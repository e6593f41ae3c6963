import TypeGraph.Loading.Loader
import TypeGraph.Proofs.Loading.Flight
import TypeGraph.Proofs.Loading.Turn

/-!
# The events of a loader

What each event does, and what a loader keeps true from event to event, in whatever order they come: what
is in flight are answers of the resolver, a load that waits is given the resolutions of its wave, and so
each event leaves the batches as they are, or is the turn of one of them.

**Results.**
* `Loader.request?_eq_some_iff`, `Loader.resume?_eq_some_iff`, `Loader.fail?_eq_some_iff`: what an event
  does, where it can happen.
* `Loader.Orderly.next`: an event keeps a loader orderly, and what turns keep.
* `Loader.Orderly.follow`: so do several events.
-/

namespace TypeGraph

/-- A place in a list splits it. -/
theorem exists_split_of_getElem?
    {α : Type}
    {items : List α}
    {i : Nat}
    {x : α}
    (h : items[i]? = some x) :
    ∃ before after, items = before ++ x :: after ∧ before.length = i := by
  obtain ⟨hlt, rfl⟩ := List.getElem?_eq_some_iff.1 h
  refine ⟨items.take i, items.drop (i + 1), ?_, by simp; omega⟩
  rw [← List.drop_eq_getElem_cons hlt, List.take_append_drop]

/-- Putting in a place what stands there changes nothing. -/
theorem set_of_getElem?
    {α : Type}
    {items : List α}
    {i : Nat}
    {x : α}
    (h : items[i]? = some x) :
    items.set i x = items := by
  obtain ⟨hlt, rfl⟩ := List.getElem?_eq_some_iff.1 h
  exact List.set_getElem_self hlt

namespace Loader

section Events

variable {s s' : Loader} {i number : Nat}

/-- A load that asks for its wave is on its way and has not asked for it before. -/
theorem request?_eq_some_iff :
    s.request? i = some s' ↔
      ∃ b, s.loads[i]? = some ⟨.active b, none⟩ ∧
        s' = { s with
          flight := (s.flight.fetchAll b.wave).1
          loads := s.loads.set i ⟨.active b, some (s.flight.fetchAll b.wave).2⟩ } := by
  unfold request?
  split
  · rename_i b h
    rw [h]
    simp [eq_comm]
  · rename_i h
    simp only [reduceCtorEq, false_iff, not_exists, not_and]
    exact fun b hb => absurd hb (h b)

/-- A load that resumes has all the manifests that it waits for. -/
theorem resume?_eq_some_iff :
    s.resume? i = some s' ↔
      ∃ b numbers manifests, s.loads[i]? = some ⟨.active b, some numbers⟩ ∧
        numbers.mapM s.flight.manifestOf = some manifests ∧
        s' = s.turned i b (Run.proceed s.registry b manifests) := by
  unfold resume?
  split
  · rename_i b numbers h
    rw [h]
    cases hm : numbers.mapM s.flight.manifestOf with
    | none =>
        simp only [reduceCtorEq, false_iff, not_exists, not_and]
        rintro b' numbers' manifests he hsome
        cases he
        rw [hm] at hsome
        cases hsome
    | some manifests =>
        constructor
        · intro he
          exact ⟨b, numbers, manifests, rfl, hm, (Option.some.inj he).symm⟩
        · rintro ⟨b', numbers', manifests', he, hsome, rfl⟩
          cases he
          rw [hm] at hsome
          cases hsome
          rfl
  · rename_i h
    simp only [reduceCtorEq, false_iff, not_exists, not_and]
    exact fun b numbers _ hl => absurd hl (h b numbers)

/-- A load that fails waits for a resolution that has failed. -/
theorem fail?_eq_some_iff :
    s.fail? i number = some s' ↔
      ∃ b numbers failure, s.loads[i]? = some ⟨.active b, some numbers⟩ ∧ number ∈ numbers ∧
        s.flight.failureOf number = some failure ∧
        s' = s.turned i b (s.registry, .ended (.error failure)) := by
  unfold fail?
  split
  · rename_i b numbers failure hl hf
    rw [hl, hf]
    by_cases hn : number ∈ numbers
    · simp [hn, eq_comm]
    · simp [hn]
  · rename_i h
    simp only [reduceCtorEq, false_iff, not_exists, not_and]
    exact fun b numbers failure hl _ hf => absurd hf (h b numbers failure hl)

end Events

section Turned

variable (s : Loader) (i : Nat) (b : Batch) (turn : TypeRegistry × BatchState)

@[simp] theorem turned_registry :
    (s.turned i b turn).registry = turn.1 := by
  obtain ⟨r, state⟩ := turn
  cases state <;> rfl

@[simp] theorem turned_loads :
    (s.turned i b turn).loads = s.loads.set i ⟨turn.2, none⟩ := by
  obtain ⟨r, state⟩ := turn
  cases state <;> rfl

@[simp] theorem turned_states :
    (s.turned i b turn).states = s.states.set i turn.2 := by
  simp [states, List.map_set]

@[simp] theorem turned_resolutions :
    (s.turned i b turn).flight.resolutions = s.flight.resolutions := by
  obtain ⟨r, state⟩ := turn
  cases state <;> rfl

@[simp] theorem turned_requests :
    (s.turned i b turn).requests = s.requests := by
  simp [requests, Flight.requests]

/-- The end of a load is noted. -/
theorem turned_ended :
    (s.turned i b turn).ended =
      match turn.2 with
      | .active _ => s.ended
      | .ended _ => s.ended ++ [i] := by
  obtain ⟨r, state⟩ := turn
  cases state <;> rfl

end Turned

/-- The load that has its turn with an event. -/
def Event.turnOf : Event → Option Nat
  | .resumes i | .fails i _ => some i
  | .requests _ | .answers _ | .forgets _ => none

/-- Some events, one after the other. -/
def follow? (answer : String → Except Failure Manifest) (s : Loader) : List Event → Option Loader
  | [] => some s
  | event :: rest => (s.next? answer event).bind fun s' => s'.follow? answer rest

section Follow

variable {answer : String → Except Failure Manifest} {s s' : Loader}

theorem follow?_cons_eq_some_iff
    {event : Event}
    {rest : List Event} :
    s.follow? answer (event :: rest) = some s' ↔
      ∃ middle, s.next? answer event = some middle ∧ middle.follow? answer rest = some s' :=
  Option.bind_eq_some_iff

theorem follow?_append
    (first rest : List Event) :
    s.follow? answer (first ++ rest) =
      (s.follow? answer first).bind fun middle => middle.follow? answer rest := by
  induction first generalizing s with
  | nil => rfl
  | cons event first ih =>
      simp only [List.cons_append, follow?, Option.bind_assoc, ih]

/-- The last of some events comes after the others. -/
theorem follow?_concat_eq_some_iff
    {events : List Event}
    {event : Event} :
    s.follow? answer (events ++ [event]) = some s' ↔
      ∃ middle, s.follow? answer events = some middle ∧ middle.next? answer event = some s' := by
  simp [follow?_append, Option.bind_eq_some_iff, follow?]

/-- What each event keeps true some events keep true. -/
theorem follow?_induction
    {I : Loader → Prop}
    (hstep : ∀ s event s', I s → s.next? answer event = some s' → I s')
    {events : List Event}
    (h : I s)
    (hf : s.follow? answer events = some s') :
    I s' := by
  induction events generalizing s with
  | nil =>
      cases hf
      exact h
  | cons event rest ih =>
      obtain ⟨middle, hnext, hrest⟩ := follow?_cons_eq_some_iff.1 hf
      exact ih (hstep _ _ _ h hnext) hrest

/-- Nothing that was asked or answered is lost with an event. -/
theorem within_next
    {event : Event}
    (hs : s.next? answer event = some s') :
    s.flight.Within s'.flight := by
  cases event with
  | requests i =>
      obtain ⟨b, -, rfl⟩ := request?_eq_some_iff.1 hs
      exact Flight.within_fetchAll _ _
  | answers number =>
      obtain ⟨f, hf, rfl⟩ := Option.map_eq_some_iff.1 hs
      exact Flight.within_answer hf
  | forgets number =>
      obtain ⟨f, hf, rfl⟩ := Option.map_eq_some_iff.1 hs
      obtain ⟨-, rfl⟩ := Flight.forget?_eq_some_iff.1 hf
      exact .of_resolutions rfl
  | resumes i =>
      obtain ⟨b, numbers, manifests, -, -, rfl⟩ := resume?_eq_some_iff.1 hs
      exact .of_resolutions (by simp)
  | fails i number =>
      obtain ⟨b, numbers, failure, -, -, -, rfl⟩ := fail?_eq_some_iff.1 hs
      exact .of_resolutions (by simp)

/-- So it is with several events. -/
theorem within_follow
    {events : List Event}
    (hf : s.follow? answer events = some s') :
    s.flight.Within s'.flight :=
  follow?_induction (I := fun s' => s.flight.Within s'.flight)
    (fun _ _ _ hI hs => hI.trans (within_next hs)) (Flight.Within.refl _) hf

end Follow

/-- What holds of a loader between two events. -/
structure Orderly (resolver : Resolver) (limit : Option Number) (s : Loader) : Prop where
  coherent : s.registry.catalog.Coherent
  sound : s.flight.Sound (resolver.settle limit)
  lawful : ∀ b, .active b ∈ s.states → b.Lawful (resolver.settle limit) s.registry.catalog
  awaits : ∀ (i : Nat) (b : Batch) (numbers : List Nat),
    s.loads[i]? = some ⟨.active b, some numbers⟩ → s.flight.Covers b.wave numbers

end Loader

namespace Run

/-- What the turns of batches on their way keep true: going on, and ending. -/
structure Kept (resolver : Resolver) (limit : Option Number)
    (J : TypeRegistry → List Nat → List BatchState → Prop) : Prop where
  goesOn : ∀ r ended before b after next, r.catalog.Coherent →
    b.Lawful (resolver.settle limit) r.catalog → J r ended (before ++ .active b :: after) →
    Turn (resolver.settle limit) r b r (.active next) →
      J r ended (before ++ .active next :: after)
  ends : ∀ r ended before b after r' result, r.catalog.Coherent →
    b.Lawful (resolver.settle limit) r.catalog → J r ended (before ++ .active b :: after) →
    Turn (resolver.settle limit) r b r' (.ended result) →
      J r' (ended ++ [before.length]) (before ++ .ended result :: after)

/-- Where only the order of a run matters, there is nothing to keep. -/
theorem Kept.nothing
    (resolver : Resolver)
    (limit : Option Number) :
    Kept resolver limit fun _ _ _ => True := by
  constructor <;> intros <;> trivial

/-- No turn adds or removes a batch. -/
theorem Kept.length
    (resolver : Resolver)
    (limit : Option Number)
    (count : Nat) :
    Kept resolver limit fun _ _ states => states.length = count where
  goesOn _ _ _ _ _ _ _ _ h _ := by simpa using h
  ends _ _ _ _ _ _ _ _ _ h _ := by simpa using h

/-- What a turn does to the registry: the catalog stays coherent and loses nothing. -/
theorem Turn.coherent
    {resolver : Resolver}
    {limit : Option Number}
    {r r' : TypeRegistry}
    {b : Batch}
    {state : BatchState}
    (ht : Turn (resolver.settle limit) r b r' state)
    (hc : r.catalog.Coherent)
    (hb : b.Lawful (resolver.settle limit) r.catalog) :
    r'.catalog.Coherent ∧ r.catalog.Within r'.catalog := by
  cases state with
  | active next =>
      obtain ⟨rfl, -, -⟩ := ht.active
      exact ⟨hc, fun _ hn => hn⟩
  | ended result =>
      rcases ht.ended with ⟨failure, -, he⟩ | ⟨next, d, hm, -, hd, he⟩
      · cases he
        exact ⟨hc, fun _ hn => hn⟩
      · obtain ⟨hafter, hwithin⟩ := settle_coherent ((hm.lawful hb).learned d hd) hc
        rw [← he] at hafter hwithin
        exact ⟨hafter, hwithin⟩

/-- A turn with which a batch does not succeed leaves the registry as it was. -/
theorem Turn.unchanged
    {resolver : Resolver}
    {limit : Option Number}
    {r r' : TypeRegistry}
    {b : Batch}
    {state : BatchState}
    (ht : Turn (resolver.settle limit) r b r' state)
    (hc : r.catalog.Coherent)
    (hb : b.Lawful (resolver.settle limit) r.catalog)
    (hno : ∀ found, state ≠ .ended (.ok found)) :
    r' = r := by
  cases state with
  | active next => exact ht.active.1
  | ended result =>
      rcases ht.ended with ⟨failure, -, he⟩ | ⟨next, d, hm, -, hd, he⟩
      · exact (Prod.mk.inj he).1
      · rcases settle_cases ((hm.lawful hb).learned d hd) hc.toIndexed with
          ⟨failure, -, hs⟩ | ⟨batch, after, found, -, -, -, hs⟩
        · exact (Prod.mk.inj (he.trans hs)).1
        · exact absurd (congrArg BatchState.ended (Prod.mk.inj (he.trans hs)).2) (hno found)

/-- A batch on its way after a turn is the one at work, or it was on its way before. -/
theorem active_of_turned
    {first last : List BatchState}
    (state : BatchState)
    {state' : BatchState}
    {b : Batch}
    (h : .active b ∈ first ++ state' :: last) :
    .active b = state' ∨ .active b ∈ first ++ state :: last := by
  simp only [List.mem_append, List.mem_cons] at h ⊢
  rcases h with h | h | h
  · exact Or.inr (Or.inl h)
  · exact Or.inl h
  · exact Or.inr (Or.inr (Or.inr h))

end Run

namespace Loader

section Orderly

variable {resolver : Resolver} {limit : Option Number} {s s' : Loader} {i : Nat} {b : Batch}
  {awaited : Option (List Nat)} {J : TypeRegistry → List Nat → List BatchState → Prop}

/-- The batch of a load is among the batches. -/
theorem mem_states
    (hl : s.loads[i]? = some ⟨.active b, awaited⟩) :
    .active b ∈ s.states :=
  List.mem_map.2 ⟨_, List.mem_of_getElem? hl, rfl⟩

theorem getElem?_states
    (hl : s.loads[i]? = some ⟨.active b, awaited⟩) :
    s.states[i]? = some (.active b) := by
  rw [states, List.getElem?_map, hl]
  rfl

section AtWork

variable {r : TypeRegistry} {state : BatchState}
  (hl : s.loads[i]? = some ⟨.active b, awaited⟩)
  (ht : Run.Turn (resolver.settle limit) s.registry b r state)
include hl ht

/-- A turn keeps a loader orderly. -/
theorem Orderly.turned
    (h : s.Orderly resolver limit) :
    (s.turned i b (r, state)).Orderly resolver limit := by
  have hb := h.lawful b (mem_states hl)
  obtain ⟨hc, hw⟩ := ht.coherent h.coherent hb
  refine ⟨by simpa using hc, ?_, ?_, ?_⟩
  · cases state with
    | active next => exact h.sound
    | ended result => exact h.sound.share _
  · intro b' hb'
    simp only [turned_registry, turned_states] at hb' ⊢
    rcases List.mem_or_eq_of_mem_set hb' with hold | rfl
    · exact (h.lawful b' hold).mono hw
    · obtain ⟨rfl, hm, -⟩ := ht.active
      exact hm.lawful hb
  · intro j b' numbers hj
    simp only [turned_loads] at hj
    by_cases hij : i = j
    · subst hij
      rw [List.getElem?_set_self (List.getElem?_eq_some_iff.1 hl).1] at hj
      cases hj
    · rw [List.getElem?_set_ne hij] at hj
      exact (h.awaits j b' numbers hj).mono (Flight.Within.of_resolutions (by simp))

/-- A turn keeps what turns keep. -/
theorem Orderly.turned_kept
    (hk : Run.Kept resolver limit J)
    (h : s.Orderly resolver limit)
    (hJ : J s.registry s.ended s.states) :
    J (s.turned i b (r, state)).registry (s.turned i b (r, state)).ended
      (s.turned i b (r, state)).states := by
  have hb := h.lawful b (mem_states hl)
  obtain ⟨before, after, hstates, rfl⟩ := exists_split_of_getElem? (getElem?_states hl)
  simp only [turned_registry, turned_states, turned_ended]
  rw [hstates] at hJ ⊢
  rw [List.set_append_right _ _ (Nat.le_refl _), Nat.sub_self, List.set_cons_zero]
  cases state with
  | active next =>
      obtain ⟨rfl, -, -⟩ := ht.active
      exact hk.goesOn _ _ _ _ _ _ h.coherent hb hJ ht
  | ended result => exact hk.ends _ _ _ _ _ _ _ h.coherent hb hJ ht

end AtWork

/-- A load that resumes has its turn. -/
theorem Orderly.turn_of_resume
    (h : s.Orderly resolver limit)
    (hs : s.resume? i = some s') :
    ∃ b numbers r state, s.loads[i]? = some ⟨.active b, some numbers⟩ ∧
      Run.Turn (resolver.settle limit) s.registry b r state ∧ s' = s.turned i b (r, state) := by
  obtain ⟨b, numbers, manifests, hl, hm, rfl⟩ := resume?_eq_some_iff.1 hs
  have hans := h.sound.manifests (h.awaits i b numbers hl) hm
  exact ⟨b, _, _, _, hl, .proceeds hans, rfl⟩

/-- So has a load that fails. -/
theorem Orderly.turn_of_fail
    {number : Nat}
    (h : s.Orderly resolver limit)
    (hs : s.fail? i number = some s') :
    ∃ b numbers r state, s.loads[i]? = some ⟨.active b, some numbers⟩ ∧
      Run.Turn (resolver.settle limit) s.registry b r state ∧ s' = s.turned i b (r, state) := by
  obtain ⟨b, numbers, failure, hl, hn, hf, rfl⟩ := fail?_eq_some_iff.1 hs
  obtain ⟨identifier, hi, hans⟩ := h.sound.failure (h.awaits i b numbers hl) hn hf
  exact ⟨b, _, _, _, hl, .fails hi hans, rfl⟩

/-- An event is the turn of a load, or it leaves the registry and the batches as they were. -/
theorem Orderly.next_cases
    (h : s.Orderly resolver limit)
    {event : Event}
    (hs : s.next? (resolver.settle limit) event = some s') :
    (∃ i b numbers r state, event.turnOf = some i ∧ s.loads[i]? = some ⟨.active b, some numbers⟩ ∧
      Run.Turn (resolver.settle limit) s.registry b r state ∧ s' = s.turned i b (r, state)) ∨
    event.turnOf = none ∧ s'.registry = s.registry ∧ s'.ended = s.ended ∧ s'.states = s.states := by
  cases event with
  | requests i =>
      obtain ⟨b, hl, rfl⟩ := request?_eq_some_iff.1 hs
      refine Or.inr ⟨rfl, rfl, rfl, ?_⟩
      simp only [states, List.map_set]
      exact set_of_getElem? (getElem?_states hl)
  | answers number =>
      obtain ⟨f, -, rfl⟩ := Option.map_eq_some_iff.1 hs
      exact Or.inr ⟨rfl, rfl, rfl, rfl⟩
  | forgets number =>
      obtain ⟨f, -, rfl⟩ := Option.map_eq_some_iff.1 hs
      exact Or.inr ⟨rfl, rfl, rfl, rfl⟩
  | resumes i =>
      obtain ⟨b, numbers, r, state, hturn⟩ := h.turn_of_resume hs
      exact Or.inl ⟨i, b, numbers, r, state, rfl, hturn⟩
  | fails i number =>
      obtain ⟨b, numbers, r, state, hturn⟩ := h.turn_of_fail hs
      exact Or.inl ⟨i, b, numbers, r, state, rfl, hturn⟩

/-- Asking for a wave keeps a loader orderly. -/
theorem Orderly.requests
    (h : s.Orderly resolver limit)
    (hs : s.request? i = some s') :
    s'.Orderly resolver limit := by
  obtain ⟨b, hl, rfl⟩ := request?_eq_some_iff.1 hs
  have hstates : (s.loads.set i ⟨.active b, some (s.flight.fetchAll b.wave).2⟩).map Load.state =
      s.states := by
    rw [List.map_set]
    exact set_of_getElem? (getElem?_states hl)
  refine ⟨h.coherent, h.sound.fetchAll _, ?_, ?_⟩
  · intro b' hb'
    exact h.lawful b' (hstates ▸ hb')
  · intro j b' numbers hj
    simp only at hj ⊢
    by_cases hij : i = j
    · subst hij
      rw [List.getElem?_set_self (List.getElem?_eq_some_iff.1 hl).1] at hj
      cases hj
      exact (h.sound.numbered.fetchAll b.wave).2
    · rw [List.getElem?_set_ne hij] at hj
      exact (h.awaits j b' numbers hj).mono (Flight.within_fetchAll _ _)

/-- An event keeps a loader orderly. -/
theorem Orderly.next
    (h : s.Orderly resolver limit)
    {event : Event}
    (hs : s.next? (resolver.settle limit) event = some s') :
    s'.Orderly resolver limit := by
  cases event with
  | requests i => exact h.requests hs
  | answers number =>
      obtain ⟨f, hf, rfl⟩ := Option.map_eq_some_iff.1 hs
      exact ⟨h.coherent, h.sound.answered hf, h.lawful,
        fun j b numbers hj => (h.awaits j b numbers hj).mono (Flight.within_answer hf)⟩
  | forgets number =>
      obtain ⟨f, hf, rfl⟩ := Option.map_eq_some_iff.1 hs
      obtain ⟨-, rfl⟩ := Flight.forget?_eq_some_iff.1 hf
      exact ⟨h.coherent, h.sound.share _, h.lawful,
        fun j b numbers hj => (h.awaits j b numbers hj).mono (.of_resolutions rfl)⟩
  | resumes i =>
      obtain ⟨b, numbers, r, state, hl, ht, rfl⟩ := h.turn_of_resume hs
      exact h.turned hl ht
  | fails i number =>
      obtain ⟨b, numbers, r, state, hl, ht, rfl⟩ := h.turn_of_fail hs
      exact h.turned hl ht

/-- An event keeps what turns keep. -/
theorem Orderly.next_kept
    (hk : Run.Kept resolver limit J)
    (h : s.Orderly resolver limit)
    (hJ : J s.registry s.ended s.states)
    {event : Event}
    (hs : s.next? (resolver.settle limit) event = some s') :
    J s'.registry s'.ended s'.states := by
  rcases h.next_cases hs with ⟨i, b, awaited, r, state, -, hl, ht, rfl⟩ | ⟨-, hr, he, hst⟩
  · exact h.turned_kept hl ht hk hJ
  · rwa [hr, he, hst]

/-- Whatever happens to an orderly loader, it stays orderly, and what turns keep holds. -/
theorem Orderly.follow
    (hk : Run.Kept resolver limit J)
    (h : s.Orderly resolver limit)
    (hJ : J s.registry s.ended s.states)
    {events : List Event}
    (hf : s.follow? (resolver.settle limit) events = some s') :
    s'.Orderly resolver limit ∧ J s'.registry s'.ended s'.states :=
  follow?_induction (I := fun s => s.Orderly resolver limit ∧ J s.registry s.ended s.states)
    (fun _ _ _ hI hs => ⟨hI.1.next hs, hI.1.next_kept hk hI.2 hs⟩) ⟨h, hJ⟩ hf

/-- Loads that begin together with sound resolutions in flight are orderly. -/
theorem Orderly.start
    {r : TypeRegistry}
    {f : Flight}
    (hc : r.catalog.Coherent)
    (hf : f.Sound (resolver.settle limit))
    (groups : List (List String)) :
    (start r f groups).Orderly resolver limit where
  coherent := hc
  sound := hf
  lawful := by
    intro b hb
    simp only [states, Loader.start, List.map_map, List.mem_map] at hb
    obtain ⟨identifiers, -, he⟩ := hb
    cases he
    exact Batch.Lawful.start _ _ identifiers
  awaits := by
    intro i b numbers hl
    rw [Loader.start, List.getElem?_map] at hl
    obtain ⟨identifiers, -, he⟩ := Option.map_eq_some_iff.1 hl
    cases he

end Orderly

end Loader
end TypeGraph
