import TypeGraph.Proofs.Loading.Accounted

/-!
# What a failed load leaves in flight

A load that fails prunes what it has asked for, as far as it is answered.  So of what it has asked for it
leaves only what has no answer yet, and where all is answered it leaves nothing that is shared.

Resolutions that are answered and not shared any more are of no consequence: loads that begin with them in
flight go through the same as loads that begin with nothing in flight, but for the numbers of their own
resolutions.

**Results.**
* `Loader.Orderly.ends_in_failure`: what a load leaves when it fails.
* `Loader.mem_shared_of_single`: what a load alone shares it has asked for, or found in flight.
* `Loader.next?_after`, `Loader.exists_of_next_after`: each event after old resolutions is one without them.
* `Loader.start_anew_iff`: loads that begin with nothing shared go through what they go through with nothing
  in flight.
-/

namespace TypeGraph

namespace Flight

/-- A flight with older resolutions that nobody shares. -/
def after (old : List Resolution) (f : Flight) : Flight :=
  ⟨old ++ f.resolutions, f.shared.map fun entry => (entry.1, old.length + entry.2)⟩

section After

variable (old : List Resolution) (f : Flight)

theorem getElem?_after
    (number : Nat) :
    (f.after old).resolutions[old.length + number]? = f.resolutions[number]? := by
  rw [after, List.getElem?_append_right (Nat.le_add_right _ _), Nat.add_sub_cancel_left]

@[simp] theorem answerOf_after
    (number : Nat) :
    (f.after old).answerOf (old.length + number) = f.answerOf number := by
  rw [answerOf, getElem?_after, answerOf]

@[simp] theorem manifestOf_after
    (number : Nat) :
    (f.after old).manifestOf (old.length + number) = f.manifestOf number := by
  rw [manifestOf, answerOf_after, manifestOf]

@[simp] theorem failureOf_after
    (number : Nat) :
    (f.after old).failureOf (old.length + number) = f.failureOf number := by
  rw [failureOf, answerOf_after, failureOf]

/-- Asking goes over old resolutions. -/
theorem fetch_after
    (identifier : String) :
    (f.after old).fetch identifier =
      ((f.fetch identifier).1.after old, old.length + (f.fetch identifier).2) := by
  have hlookup : (f.after old).shared.lookup identifier =
      (f.shared.lookup identifier).map (old.length + ·) := by
    rw [after, lookup_map_value]
  unfold fetch
  rw [hlookup]
  cases f.shared.lookup identifier with
  | some number => rfl
  | none => simp [after]

theorem fetchAll_after
    (wave : List String) :
    (f.after old).fetchAll wave =
      ((f.fetchAll wave).1.after old, (f.fetchAll wave).2.map (old.length + ·)) := by
  induction wave generalizing f with
  | nil => rfl
  | cons identifier rest ih => simp [fetchAll_cons, fetch_after, ih]

/-- So does answering. -/
theorem answer?_after
    (answer : String → Except Failure Manifest)
    (number : Nat) :
    (f.after old).answer? answer (old.length + number) =
      (f.answer? answer number).map (after old) := by
  unfold answer?
  rw [getElem?_after]
  split <;> simp [after, List.set_append_right]

theorem forget?_after
    (number : Nat) :
    (f.after old).forget? (old.length + number) = (f.forget? number).map (after old) := by
  unfold forget?
  rw [failureOf_after]
  cases f.failureOf number with
  | none => rfl
  | some failure =>
      have hsame : ∀ entry : String × Nat,
          (old.length + entry.2 != old.length + number) = (entry.2 != number) := by
        intro entry
        rw [Bool.eq_iff_iff]
        simp
      simp [after, List.filter_map, Function.comp_def, hsame]

section Old

variable {old f} {number : Nat}

/-- An old resolution is not answered again. -/
theorem answer?_old
    (hold : ∀ resolution ∈ old, resolution.answer ≠ none)
    (hlt : number < old.length)
    (answer : String → Except Failure Manifest) :
    (f.after old).answer? answer number = none := by
  refine Option.eq_none_iff_forall_ne_some.2 fun g hg => ?_
  obtain ⟨identifier, hi, -⟩ := answer?_eq_some_iff.1 hg
  have hsame : (old ++ f.resolutions)[number]? = old[number]? := List.getElem?_append_left hlt
  have hfound : old[number]? = some ⟨identifier, none⟩ := hsame.symm.trans hi
  exact hold _ (List.mem_of_getElem? hfound) rfl

/-- It can be forgotten once more, which changes nothing. -/
theorem forget?_old
    (hlt : number < old.length)
    {g : Flight}
    (hg : (f.after old).forget? number = some g) :
    g = f.after old := by
  obtain ⟨-, rfl⟩ := forget?_eq_some_iff.1 hg
  have hkeeps : (f.after old).shared.filter (fun entry => entry.2 != number) =
      (f.after old).shared := by
    refine List.filter_eq_self.2 fun entry hentry => ?_
    obtain ⟨known, -, rfl⟩ := List.mem_map.1 hentry
    simp only [bne_iff_ne]
    omega
  rw [hkeeps]

end Old

theorem prune_after
    (identifiers : List String) :
    (f.after old).prune identifiers = (f.prune identifiers).after old := by
  have hanswer := answerOf_after old f
  unfold prune
  rw [after] at hanswer ⊢
  simp [after, List.filter_map, Function.comp_def, hanswer]

end After

end Flight

namespace Flight

/-- What is shared after asking was shared before, or has been asked for. -/
theorem mem_shared_fetchAll
    {f : Flight}
    {wave : List String}
    {entry : String × Nat}
    (h : entry ∈ (f.fetchAll wave).1.shared) :
    entry ∈ f.shared ∨ entry.1 ∈ wave := by
  induction wave generalizing f with
  | nil => exact Or.inl h
  | cons identifier rest ih =>
      rw [fetchAll_cons] at h
      rcases ih h with hfirst | hrest
      · rcases fetch_cases f identifier with ⟨number, -, he⟩ | ⟨-, he⟩
        · rw [he] at hfirst
          exact Or.inl hfirst
        · rw [he] at hfirst
          rcases List.mem_cons.1 hfirst with rfl | hold
          · exact Or.inr List.mem_cons_self
          · exact Or.inl hold
      · exact Or.inr (List.mem_cons_of_mem _ hrest)

end Flight

namespace Loader

/-- An event of loads that have older resolutions before theirs. -/
def Event.after (count : Nat) : Event → Event
  | .requests i => .requests i
  | .answers number => .answers (count + number)
  | .forgets number => .forgets (count + number)
  | .resumes i => .resumes i
  | .fails i number => .fails i (count + number)

/-- A load that has older resolutions before its own. -/
def Load.after (count : Nat) (load : Load) : Load :=
  ⟨load.state, load.awaited.map (List.map (count + ·))⟩

/-- A loader with older resolutions that nobody shares. -/
def after (old : List Resolution) (s : Loader) : Loader :=
  { s with flight := s.flight.after old, loads := s.loads.map (Load.after old.length) }

section After

variable (old : List Resolution) (s : Loader)

@[simp] theorem states_after :
    (s.after old).states = s.states := by
  simp [after, states, Load.after, Function.comp_def]

@[simp] theorem requests_after :
    (s.after old).requests = old.map Resolution.identifier ++ s.requests := by
  simp [after, Flight.after, requests, Flight.requests]

theorem request?_after
    (i : Nat) :
    (s.after old).request? i = (s.request? i).map (after old) := by
  unfold request?
  rw [after, List.getElem?_map]
  rcases s.loads[i]? with _ | ⟨_ | _, _ | _⟩ <;> try rfl
  simp [after, Load.after, Flight.fetchAll_after, List.map_set]

theorem turned_after
    (i : Nat)
    (b : Batch)
    (turn : TypeRegistry × BatchState) :
    (s.after old).turned i b turn = (s.turned i b turn).after old := by
  obtain ⟨r, state⟩ := turn
  cases state <;> simp [turned, after, Load.after, Flight.prune_after, List.map_set]

theorem resume?_after
    (i : Nat) :
    (s.after old).resume? i = (s.resume? i).map (after old) := by
  have hmanifests : ∀ numbers : List Nat,
      (numbers.map (old.length + ·)).mapM (s.after old).flight.manifestOf =
        numbers.mapM s.flight.manifestOf := by
    intro numbers
    rw [List.mapM_map]
    exact congrArg (fun f => numbers.mapM f) (funext fun number => by simp [after])
  have hl : (s.after old).loads[i]? = s.loads[i]?.map (Load.after old.length) := by
    rw [after, List.getElem?_map]
  unfold resume?
  rw [hl]
  rcases s.loads[i]? with _ | ⟨b | _, _ | numbers⟩ <;> try rfl
  simp only [Option.map_some, Load.after, hmanifests]
  cases numbers.mapM s.flight.manifestOf with
  | none => rfl
  | some manifests => exact congrArg some (turned_after old s i b _)

theorem fail?_after
    (i number : Nat) :
    (s.after old).fail? i (old.length + number) = (s.fail? i number).map (after old) := by
  have hl : (s.after old).loads[i]? = s.loads[i]?.map (Load.after old.length) := by
    rw [after, List.getElem?_map]
  have hfailure : (s.after old).flight.failureOf (old.length + number) =
      s.flight.failureOf number := by
    simp [after]
  unfold fail?
  rw [hl, hfailure]
  rcases s.loads[i]? with _ | ⟨b | _, _ | numbers⟩ <;> try rfl
  cases s.flight.failureOf number with
  | none => rfl
  | some failure =>
      have hcontains : (numbers.map (old.length + ·)).contains (old.length + number) =
          numbers.contains number := by
        rw [Bool.eq_iff_iff]
        simp
      simp only [Option.map_some, Load.after, hcontains]
      split
      · exact congrArg some (turned_after old s i b _)
      · rfl

/-- No load waits for an old resolution. -/
theorem fail?_old
    (i : Nat)
    {number : Nat}
    (hlt : number < old.length) :
    (s.after old).fail? i number = none := by
  refine Option.eq_none_iff_forall_ne_some.2 fun t ht => ?_
  obtain ⟨b, numbers, failure, hl, hn, -⟩ := fail?_eq_some_iff.1 ht
  rw [after, List.getElem?_map] at hl
  obtain ⟨⟨state, awaited⟩, -, hload⟩ := Option.map_eq_some_iff.1 hl
  cases awaited with
  | none => cases hload
  | some own =>
      cases hload
      obtain ⟨known, -, rfl⟩ := List.mem_map.1 hn
      omega

/-- An event after old resolutions is one without them. -/
theorem next?_after
    (answer : String → Except Failure Manifest)
    (event : Event) :
    (s.after old).next? answer (event.after old.length) =
      (s.next? answer event).map (after old) := by
  cases event with
  | requests i => exact request?_after old s i
  | answers number =>
      simp only [next?, Event.after]
      rw [show (s.after old).flight = s.flight.after old from rfl, Flight.answer?_after]
      cases s.flight.answer? answer number <;> rfl
  | forgets number =>
      simp only [next?, Event.after]
      rw [show (s.after old).flight = s.flight.after old from rfl, Flight.forget?_after]
      cases s.flight.forget? number <;> rfl
  | resumes i => exact resume?_after old s i
  | fails i number => exact fail?_after old s i number

end After

section Anew

variable {answer : String → Except Failure Manifest} {old : List Resolution} {s t : Loader}
  {events : List Event}

/-- Where all old resolutions are answered, nothing else happens after them than without them, but that an
old one may be forgotten once more. -/
theorem exists_of_next_after
    (hold : ∀ resolution ∈ old, resolution.answer ≠ none)
    {event : Event}
    (hs : (s.after old).next? answer event = some t) :
    t = s.after old ∨ ∃ event' s', s.next? answer event' = some s' ∧ t = s'.after old := by
  have hlater : ∀ event' : Event, event = event'.after old.length →
      ∃ event' s', s.next? answer event' = some s' ∧ t = s'.after old := by
    rintro event' rfl
    rw [next?_after] at hs
    obtain ⟨s', hnext, rfl⟩ := Option.map_eq_some_iff.1 hs
    exact ⟨event', s', hnext, rfl⟩
  cases event with
  | requests i => exact Or.inr (hlater (.requests i) rfl)
  | resumes i => exact Or.inr (hlater (.resumes i) rfl)
  | answers number =>
      rcases Nat.lt_or_ge number old.length with hlt | hge
      · obtain ⟨f, hf, -⟩ := Option.map_eq_some_iff.1 hs
        cases (Flight.answer?_old hold hlt answer).symm.trans hf
      · obtain ⟨rest, rfl⟩ := Nat.exists_eq_add_of_le hge
        exact Or.inr (hlater (.answers rest) rfl)
  | forgets number =>
      rcases Nat.lt_or_ge number old.length with hlt | hge
      · obtain ⟨f, hf, rfl⟩ := Option.map_eq_some_iff.1 hs
        exact Or.inl (congrArg (fun f => { s.after old with flight := f }) (Flight.forget?_old hlt hf))
      · obtain ⟨rest, rfl⟩ := Nat.exists_eq_add_of_le hge
        exact Or.inr (hlater (.forgets rest) rfl)
  | fails i number =>
      rcases Nat.lt_or_ge number old.length with hlt | hge
      · cases (fail?_old old s i hlt).symm.trans hs
      · obtain ⟨rest, rfl⟩ := Nat.exists_eq_add_of_le hge
        exact Or.inr (hlater (.fails i rest) rfl)

theorem follow_after
    (hf : s.follow? answer events = some t) :
    (s.after old).follow? answer (events.map (Event.after old.length)) = some (t.after old) := by
  induction events generalizing s with
  | nil =>
      cases hf
      rfl
  | cons event rest ih =>
      obtain ⟨middle, hnext, hrest⟩ := follow?_cons_eq_some_iff.1 hf
      refine follow?_cons_eq_some_iff.2 ⟨middle.after old, ?_, ih hrest⟩
      rw [next?_after, hnext]
      rfl

theorem exists_of_follow_after
    (hold : ∀ resolution ∈ old, resolution.answer ≠ none)
    (hf : (s.after old).follow? answer events = some t) :
    ∃ events' s', s.follow? answer events' = some s' ∧ t = s'.after old := by
  induction events generalizing s with
  | nil =>
      cases hf
      exact ⟨[], s, rfl, rfl⟩
  | cons event rest ih =>
      obtain ⟨middle, hnext, hrest⟩ := follow?_cons_eq_some_iff.1 hf
      rcases exists_of_next_after hold hnext with rfl | ⟨event', middle', hnext', rfl⟩
      · exact ih hrest
      · obtain ⟨events', s', hf', he⟩ := ih hrest
        exact ⟨event' :: events', s', follow?_cons_eq_some_iff.2 ⟨middle', hnext', hf'⟩, he⟩

/-- Loads that begin when all resolutions are answered and none is shared go through what they go through
when nothing is in flight. -/
theorem start_anew_iff
    {f : Flight}
    (hshared : f.shared = [])
    (hpending : f.pending = [])
    (r : TypeRegistry)
    (groups : List (List String)) :
    (∃ events, (start r f groups).follow? answer events = some t) ↔
      ∃ events s, (start r .empty groups).follow? answer events = some s ∧
        t = s.after f.resolutions := by
  have hstart : start r f groups = (start r .empty groups).after f.resolutions := by
    obtain ⟨resolutions, shared⟩ := f
    subst hshared
    simp [start, after, Flight.after, Flight.empty, Load.after, opening, Function.comp_def]
  have hold : ∀ resolution ∈ f.resolutions, resolution.answer ≠ none := by
    intro resolution hmem hnone
    obtain ⟨number, hnumber⟩ := List.mem_iff_getElem?.1 hmem
    have hin : number ∈ f.pending := Flight.mem_pending_iff.2
      ⟨(List.getElem?_eq_some_iff.1 hnumber).1, by simp [Flight.answerOf, hnumber, hnone]⟩
    simp [hpending] at hin
  rw [hstart]
  constructor
  · rintro ⟨events, hf⟩
    exact exists_of_follow_after hold hf
  · rintro ⟨events, s, hf, rfl⟩
    exact ⟨_, follow_after hf⟩

end Anew

section Failed

variable {resolver : Resolver} {limit : Option Number} {s s' : Loader} {i : Nat} {b : Batch}

/-- A load that fails leaves the registry as it was, and what is shared, but for what it has asked for and
is answered. -/
theorem Orderly.ends_in_failure
    (h : s.Orderly resolver limit)
    {event : Event}
    (hs : s.next? (resolver.settle limit) event = some s')
    (hb : s.states[i]? = some (.active b))
    {failure : Failure}
    (hended : s'.states[i]? = some (.ended (.error failure))) :
    s'.registry = s.registry ∧ s'.flight.resolutions = s.flight.resolutions ∧
      ∀ entry, entry ∈ s'.flight.shared ↔ entry ∈ s.flight.shared ∧
        (entry.1 ∈ b.touched → s.flight.answerOf entry.2 = none) := by
  rcases h.next_cases hs with ⟨j, b', numbers, r, state, -, hl, ht, rfl⟩ | ⟨-, -, -, hstates⟩
  · have hb' := getElem?_states hl
    rw [turned_states] at hended
    by_cases hij : j = i
    · subst hij
      rw [hb] at hb'
      cases hb'
      rw [List.getElem?_set_self (List.getElem?_eq_some_iff.1 hb).1] at hended
      cases hended
      have hsame := ht.unchanged h.coherent (h.lawful b (mem_states hl)) (by simp)
      refine ⟨by simpa using hsame, by simp, fun entry => ?_⟩
      simp only [Loader.turned, Flight.prune, List.mem_filter]
      refine and_congr_right fun _ => ?_
      simp [imp_iff_not_or]
    · rw [List.getElem?_set_ne hij, hb] at hended
      cases hended
  · rw [hstates, hb] at hended
    cases hended

/-- A turn shares nothing. -/
theorem mem_shared_turned
    {turn : TypeRegistry × BatchState}
    {entry : String × Nat}
    (he : entry ∈ (s.turned i b turn).flight.shared) :
    entry ∈ s.flight.shared := by
  obtain ⟨r, state⟩ := turn
  cases state with
  | active next => exact he
  | ended result => exact (List.mem_filter.1 he).1

/-- With a turn a load alone goes on, and remembers what it has asked for. -/
theorem touched_of_turned
    {numbers : List Nat}
    {r : TypeRegistry}
    {state : BatchState}
    {b' : Batch}
    (hl : s.loads[i]? = some ⟨.active b', some numbers⟩)
    (ht : Run.Turn (resolver.settle limit) s.registry b' r state)
    (hb : (s.turned i b' (r, state)).states = [.active b]) :
    s.states = [.active b'] ∧ ∀ identifier ∈ b'.touched, identifier ∈ b.touched := by
  have hb' := getElem?_states hl
  rw [turned_states] at hb
  have hlength : s.states.length = 1 := by simpa using congrArg List.length hb
  obtain ⟨only, honly⟩ := List.length_eq_one_iff.1 hlength
  have hlt := (List.getElem?_eq_some_iff.1 hb').1
  obtain rfl : i = 0 := by omega
  rw [honly] at hb hb'
  cases hb'
  cases hb
  obtain ⟨-, hm, -⟩ := ht.active
  refine ⟨honly, fun identifier hi => ?_⟩
  rw [hm.keeps.2]
  exact List.mem_append_left _ hi

/-- When a load alone has asked, everything that is shared was shared before or is in its wave. -/
theorem Orderly.touched_of_request
    (h : s.Orderly resolver limit)
    (hs : s.request? i = some s')
    (hb : s'.states = [.active b])
    {entry : String × Nat}
    (he : entry ∈ s'.flight.shared) :
    s.states = [.active b] ∧ (entry ∈ s.flight.shared ∨ entry.1 ∈ b.touched) := by
  obtain ⟨b', hl, rfl⟩ := request?_eq_some_iff.1 hs
  have hstates : s.states = [.active b] := by
    rw [← hb, states, states, List.map_set]
    exact (set_of_getElem? (getElem?_states hl)).symm
  have hmem := mem_states hl
  rw [hstates, List.mem_singleton] at hmem
  cases hmem
  exact ⟨hstates, (Flight.mem_shared_fetchAll he).imp_right
    fun hwave => (h.lawful b (mem_states hl)).wave_touched _ hwave⟩

/-- What a load alone shares it has asked for, or it was shared before. -/
theorem mem_shared_of_single
    {r : TypeRegistry}
    {f : Flight}
    {identifiers : List String}
    (hc : r.catalog.Coherent)
    (hsound : f.Sound (resolver.settle limit))
    {events : List Event}
    (hf : (start r f [identifiers]).follow? (resolver.settle limit) events = some s)
    (hb : s.states = [.active b])
    {entry : String × Nat}
    (he : entry ∈ s.flight.shared) :
    entry ∈ f.shared ∨ entry.1 ∈ b.touched := by
  refine (follow?_induction (I := fun s => s.Orderly resolver limit ∧
    ∀ b : Batch, s.states = [.active b] → ∀ entry ∈ s.flight.shared,
      entry ∈ f.shared ∨ entry.1 ∈ b.touched) ?_ ⟨.start hc hsound [identifiers], ?_⟩ hf).2 b hb entry he
  · intro s event s' ⟨horderly, hI⟩ hs
    refine ⟨horderly.next hs, fun b hb entry he => ?_⟩
    cases event with
    | requests j =>
        obtain ⟨hstates, hold | htouched⟩ := horderly.touched_of_request hs hb he
        · exact hI b hstates entry hold
        · exact Or.inr htouched
    | answers number =>
        obtain ⟨f', hf', rfl⟩ := Option.map_eq_some_iff.1 hs
        obtain ⟨identifier, -, rfl⟩ := Flight.answer?_eq_some_iff.1 hf'
        exact hI b hb entry he
    | forgets number =>
        obtain ⟨f', hf', rfl⟩ := Option.map_eq_some_iff.1 hs
        obtain ⟨-, rfl⟩ := Flight.forget?_eq_some_iff.1 hf'
        exact hI b hb entry (List.mem_filter.1 he).1
    | resumes j =>
        obtain ⟨b', numbers, r', state, hl, ht, rfl⟩ := horderly.turn_of_resume hs
        obtain ⟨hstates, htouched⟩ := touched_of_turned hl ht hb
        exact (hI b' hstates entry (mem_shared_turned he)).imp_right (htouched _)
    | fails j number =>
        obtain ⟨b', numbers, r', state, hl, ht, rfl⟩ := horderly.turn_of_fail hs
        obtain ⟨hstates, htouched⟩ := touched_of_turned hl ht hb
        exact (hI b' hstates entry (mem_shared_turned he)).imp_right (htouched _)
  · intro b hb entry he
    exact Or.inl he

end Failed

end Loader
end TypeGraph
