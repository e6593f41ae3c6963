import TypeGraph.Proofs.Loading.Accounted

/-!
# Orders of turns

What the loads of a loader find and commit depends only on the order of their turns, and on what each of
them makes of its turn: between two turns nothing changes but what is in flight.  Conversely a load that is
on its way can have any of its turns next, whatever is in flight.

So the turns of some loads can be left out of a run, if these loads do not commit anything: the others can
have the turns that they have had, in the same order.

**Results.**
* `Loader.Orderly.follow_quiet`: without a turn only what is in flight changes.
* `Loader.Orderly.exists_turn`: a load on its way can have any of its turns next.
* `Loader.Orderly.exists_without`: the turns of a load that does not succeed can be left out.
* `Loader.Orderly.alike_without`: with the same turns the others come equally far without this load.
-/

namespace TypeGraph

namespace Loader

/-- The loads that have a turn with some events, in the order of these turns. -/
def turnsOf (events : List Event) : List Nat :=
  events.filterMap Event.turnOf

theorem turnsOf_append
    (first rest : List Event) :
    turnsOf (first ++ rest) = turnsOf first ++ turnsOf rest :=
  List.filterMap_append

section Cons

variable {event : Event} {rest : List Event} {i : Nat}

theorem turnsOf_cons_of_turn
    (h : event.turnOf = some i) :
    turnsOf (event :: rest) = [i] ++ turnsOf rest := by
  simp [turnsOf, h]

theorem turnsOf_cons_of_quiet
    (h : event.turnOf = none) :
    turnsOf (event :: rest) = turnsOf rest := by
  simp [turnsOf, h]

end Cons

section Quiet

variable {resolver : Resolver} {limit : Option Number} {s s' : Loader} {events : List Event}
  {i : Nat} {b : Batch}

/-- Without a turn only what is in flight changes. -/
theorem Orderly.follow_quiet
    (h : s.Orderly resolver limit)
    (hf : s.follow? (resolver.settle limit) events = some s')
    (hquiet : turnsOf events = []) :
    s'.registry = s.registry ∧ s'.ended = s.ended ∧ s'.states = s.states := by
  induction events generalizing s with
  | nil =>
      cases hf
      exact ⟨rfl, rfl, rfl⟩
  | cons event rest ih =>
      obtain ⟨middle, hnext, hrest⟩ := follow?_cons_eq_some_iff.1 hf
      rcases h.next_cases hnext with ⟨j, _, _, _, _, hturn, -⟩ | ⟨hturn, hr, he, hst⟩
      · simp [turnsOf_cons_of_turn hturn] at hquiet
      · rw [turnsOf_cons_of_quiet hturn] at hquiet
        obtain ⟨hr', he', hst'⟩ := ih (h.next hnext) hrest hquiet
        exact ⟨hr'.trans hr, he'.trans he, hst'.trans hst⟩

/-- The first turn of some events: what happens before it changes only what is in flight. -/
theorem Orderly.exists_first_turn
    (h : s.Orderly resolver limit)
    (hf : s.follow? (resolver.settle limit) events = some s')
    {rest : List Nat}
    (hturns : turnsOf events = i :: rest) :
    ∃ (ready : Loader) (b : Batch) (numbers : List Nat) (r : TypeRegistry) (state : BatchState)
      (later : List Event), (ready.turned i b (r, state)).Orderly resolver limit ∧
      ready.registry = s.registry ∧ ready.ended = s.ended ∧ ready.states = s.states ∧
        ready.loads[i]? = some ⟨.active b, some numbers⟩ ∧
        Run.Turn (resolver.settle limit) s.registry b r state ∧
        (ready.turned i b (r, state)).follow? (resolver.settle limit) later = some s' ∧
          turnsOf later = rest := by
  obtain ⟨quiet, event, later, rfl, hquiet, hturn, hlater⟩ := List.filterMap_eq_cons_iff.1 hturns
  rw [follow?_append] at hf
  obtain ⟨ready, hready, hlast⟩ := Option.bind_eq_some_iff.1 hf
  obtain ⟨turned, hnext, hrest⟩ := follow?_cons_eq_some_iff.1 hlast
  obtain ⟨hr, he, hst⟩ := h.follow_quiet hready (List.filterMap_eq_nil_iff.2 hquiet)
  have horderly := (h.follow (Run.Kept.nothing resolver limit) trivial hready).1
  rcases horderly.next_cases hnext with ⟨j, b, numbers, r, state, hj, hl, ht, rfl⟩ | ⟨hnone, -⟩
  · rw [hturn, Option.some.injEq] at hj
    subst hj
    exact ⟨ready, b, numbers, r, state, later, horderly.next hnext, hr, he, hst, hl, hr ▸ ht, hrest,
      hlater⟩
  · rw [hturn] at hnone
    cases hnone

/-- A load on its way waits for its wave, or can ask for it. -/
theorem exists_asked
    (answer : String → Except Failure Manifest)
    (hb : s.states[i]? = some (.active b)) :
    ∃ events numbers s', s.follow? answer events = some s' ∧ turnsOf events = [] ∧
      s'.loads[i]? = some ⟨.active b, some numbers⟩ := by
  rw [states, List.getElem?_map] at hb
  obtain ⟨⟨state, awaited⟩, hl, rfl⟩ := Option.map_eq_some_iff.1 hb
  cases awaited with
  | some numbers => exact ⟨[], numbers, s, rfl, rfl, hl⟩
  | none =>
      have hnext := request?_eq_some_iff.2 ⟨b, hl, rfl⟩
      have hlt := (List.getElem?_eq_some_iff.1 hl).1
      exact ⟨[.requests i], (s.flight.fetchAll b.wave).2, _,
        follow?_cons_eq_some_iff.2 ⟨_, hnext, rfl⟩, rfl, List.getElem?_set_self hlt⟩

/-- Some resolutions can be answered, without anything else. -/
theorem exists_answered
    (answer : String → Except Failure Manifest)
    {numbers : List Nat}
    (hn : ∀ number ∈ numbers, ∃ identifier, s.flight.identifierOf number = some identifier) :
    ∃ events s', s.follow? answer events = some s' ∧ turnsOf events = [] ∧ s'.loads = s.loads ∧
      ∀ number ∈ numbers, ∃ a, s'.flight.answerOf number = some a := by
  induction numbers generalizing s with
  | nil => exact ⟨[], s, rfl, rfl, rfl, by simp⟩
  | cons number rest ih =>
      obtain ⟨hfirst, hrest⟩ := List.forall_mem_cons.1 hn
      cases ha : s.flight.answerOf number with
      | some a =>
          obtain ⟨events, s', hf, hquiet, hloads, hall⟩ := ih hrest
          have hwithin := within_follow hf
          refine ⟨events, s', hf, hquiet, hloads, List.forall_mem_cons.2 ⟨⟨a, ?_⟩, hall⟩⟩
          exact hwithin.answer number a ha
      | none =>
          obtain ⟨identifier, hi⟩ := hfirst
          obtain ⟨f, hanswer⟩ := Flight.exists_answer_of_mem_pending answer
            (Flight.mem_pending_iff.2 ⟨Flight.identifierOf_lt hi, ha⟩)
          have hkeeps := Flight.within_answer hanswer
          obtain ⟨known, -, -, hknown⟩ := Flight.answerOf_answer hanswer
          obtain ⟨events, s', hf, hquiet, hloads, hall⟩ := ih (s := { s with flight := f })
            fun other ho => (hrest other ho).imp fun _ => hkeeps.identifier other _
          have hnext : s.next? answer (.answers number) = some { s with flight := f } := by
            rw [next?, hanswer]
            rfl
          refine ⟨.answers number :: events, s', follow?_cons_eq_some_iff.2 ⟨_, hnext, hf⟩, hquiet,
            hloads, List.forall_mem_cons.2 ⟨⟨answer known, ?_⟩, hall⟩⟩
          exact (within_follow hf).answer number _ hknown

/-- A load on its way can have any of its turns next. -/
theorem Orderly.exists_turn
    (h : s.Orderly resolver limit)
    (hb : s.states[i]? = some (.active b))
    {r : TypeRegistry}
    {state : BatchState}
    (ht : Run.Turn (resolver.settle limit) s.registry b r state) :
    ∃ events s', s.follow? (resolver.settle limit) events = some s' ∧ turnsOf events = [i] ∧
      s'.registry = r ∧ s'.states = s.states.set i state ∧
        s'.ended = (s.turned i b (r, state)).ended := by
  obtain ⟨asking, numbers, asked, hasking, hquiet, hl⟩ := exists_asked (resolver.settle limit) hb
  have hasked := (h.follow (Run.Kept.nothing resolver limit) trivial hasking).1
  have hcovers := hasked.awaits i b numbers hl
  obtain ⟨answering, ready, hanswering, hquiet', hloads, hanswered⟩ :=
    exists_answered (resolver.settle limit) fun number hn =>
      (exists_of_mem_forall₂ hcovers hn).imp fun _ hi => hi.2
  have hready := (hasked.follow (Run.Kept.nothing resolver limit) trivial hanswering).1
  rw [← hloads] at hl
  have hcovers := hready.awaits i b numbers hl
  have hfollow : s.follow? (resolver.settle limit) (asking ++ answering) = some ready := by
    rw [follow?_append, hasking]
    exact hanswering
  have hturns : turnsOf (asking ++ answering) = [] := by rw [turnsOf_append, hquiet, hquiet']; rfl
  obtain ⟨hr, he, hst⟩ := h.follow_quiet hfollow hturns
  -- what is left is the turn itself
  have hlast : ∃ event, event.turnOf = some i ∧
      ready.next? (resolver.settle limit) event = some (ready.turned i b (r, state)) := by
    rw [← hr] at ht
    cases ht with
    | fails hi hfailure =>
        obtain ⟨number, hn, hnumber⟩ := exists_of_mem_forall₂ hcovers.flip hi
        obtain ⟨a, ha⟩ := hanswered number hn
        have hans := hready.sound.truthful number _ a hnumber ha
        rw [hfailure] at hans
        subst hans
        exact ⟨.fails i number, rfl, fail?_eq_some_iff.2
          ⟨b, numbers, _, hl, hn, Flight.failureOf_eq_some_iff.2 ha, rfl⟩⟩
    | @proceeds manifests hans =>
        have hmanifests := hready.sound.mapM_manifestOf hcovers hanswered hans
        exact ⟨.resumes i, rfl, resume?_eq_some_iff.2 ⟨b, numbers, manifests, hl, hmanifests, rfl⟩⟩
  obtain ⟨event, hturn, hnext⟩ := hlast
  refine ⟨asking ++ answering ++ [event], ready.turned i b (r, state), ?_, ?_, by simp, by simp [hst],
    by simp [turned_ended, he]⟩
  · rw [follow?_append, hfollow]
    exact follow?_cons_eq_some_iff.2 ⟨_, hnext, rfl⟩
  · rw [turnsOf_append, hturns]
    simp [turnsOf, hturn]

end Quiet

/-- Some positions without one, as they are counted when it is left out. -/
def leaveOut (i : Nat) (positions : List Nat) : List Nat :=
  (positions.filter (· ≠ i)).map fun j => if j < i then j else j - 1

section LeaveOut

variable {α : Type} {items : List α} {i j : Nat} {x : α}

theorem leaveOut_append
    (i : Nat)
    (first rest : List Nat) :
    leaveOut i (first ++ rest) = leaveOut i first ++ leaveOut i rest := by
  simp [leaveOut]

theorem leaveOut_self
    (i : Nat) :
    leaveOut i [i] = [] := by
  simp [leaveOut]

/-- Another position than the one that is left out has a place among the rest. -/
theorem exists_place
    (h : j ≠ i)
    (items : List α) :
    ∃ place, leaveOut i [j] = [place] ∧ (items.eraseIdx i)[place]? = items[j]? ∧
      ∀ x, (items.set j x).eraseIdx i = (items.eraseIdx i).set place x := by
  rcases Nat.lt_or_gt_of_ne h with hlt | hgt
  · exact ⟨j, by simp [leaveOut, h, hlt], List.getElem?_eraseIdx_of_lt hlt,
      fun x => List.eraseIdx_set_gt hlt⟩
  · refine ⟨j - 1, by simp [leaveOut, h, Nat.not_lt_of_gt hgt], ?_, fun x => List.eraseIdx_set_lt hgt⟩
    rw [List.getElem?_eraseIdx_of_ge (by omega), show j - 1 + 1 = j by omega]

end LeaveOut

section Without

variable {resolver : Resolver} {limit : Option Number} {s s' t : Loader} {i : Nat}

/-- The end of the load that is left out does not count. -/
theorem leaveOut_turned_self
    (b : Batch)
    (turn : TypeRegistry × BatchState) :
    leaveOut i (s.turned i b turn).ended = leaveOut i s.ended := by
  rw [turned_ended]
  split
  · rfl
  · rw [leaveOut_append, leaveOut_self, List.append_nil]

/-- The turn of a load that does not succeed changes nothing. -/
theorem Orderly.unchanged_of_fails
    (h : s.Orderly resolver limit)
    {b : Batch}
    {numbers : List Nat}
    {r : TypeRegistry}
    {state : BatchState}
    (hl : s.loads[i]? = some ⟨.active b, some numbers⟩)
    (ht : Run.Turn (resolver.settle limit) s.registry b r state)
    {events : List Event}
    (hf : (s.turned i b (r, state)).follow? (resolver.settle limit) events = some s')
    (hno : ∀ found, s'.states[i]? ≠ some (.ended (.ok found))) :
    r = s.registry := by
  refine ht.unchanged h.coherent (h.lawful b (mem_states hl)) ?_
  rintro found rfl
  refine hno found ((h.turned hl ht).ended_follow hf ?_)
  rw [turned_states]
  exact List.getElem?_set_self (List.getElem?_eq_some_iff.1 (getElem?_states hl)).1

/-- The turns of a load that does not succeed can be left out: the others have their turns as before. -/
theorem Orderly.exists_without
    (h : s.Orderly resolver limit)
    {events : List Event}
    (hf : s.follow? (resolver.settle limit) events = some s')
    (hno : ∀ found, s'.states[i]? ≠ some (.ended (.ok found)))
    (ht : t.Orderly resolver limit)
    (hregistry : t.registry = s.registry)
    (hstates : t.states = s.states.eraseIdx i)
    (hended : t.ended = leaveOut i s.ended) :
    ∃ events' t', t.follow? (resolver.settle limit) events' = some t' ∧
      turnsOf events' = leaveOut i (turnsOf events) ∧ t'.registry = s'.registry ∧
        t'.states = s'.states.eraseIdx i ∧ t'.ended = leaveOut i s'.ended := by
  induction events generalizing s t with
  | nil =>
      cases hf
      exact ⟨[], t, rfl, rfl, hregistry, hstates, hended⟩
  | cons event rest ih =>
      obtain ⟨middle, hnext, hrest⟩ := follow?_cons_eq_some_iff.1 hf
      have hmiddle := h.next hnext
      rcases h.next_cases hnext with
        ⟨j, b, numbers, r, state, hturn, hl, hturns, rfl⟩ | ⟨hturn, hr, he, hst⟩
      · have hevent : turnsOf (event :: rest) = [j] ++ turnsOf rest := turnsOf_cons_of_turn hturn
        have hb := getElem?_states hl
        by_cases hij : j = i
        · -- the load that is left out does not succeed, so its turn changes nothing
          subst hij
          have hsame := h.unchanged_of_fails hl hturns hrest hno
          rw [hevent, leaveOut_append, leaveOut_self]
          refine ih hmiddle hrest ht (by simpa [hsame] using hregistry) ?_ ?_
          · rw [turned_states, List.eraseIdx_set_eq]
            exact hstates
          · rw [leaveOut_turned_self, hended]
        · obtain ⟨place, hplace, hget, hset⟩ := exists_place hij s.states
          rw [← hregistry] at hturns
          obtain ⟨first, t₁, hfirst, hone, hr₁, hst₁, he₁⟩ :=
            ht.exists_turn (by rw [hstates, hget, hb]) hturns
          have ht₁ := (ht.follow (Run.Kept.nothing resolver limit) trivial hfirst).1
          obtain ⟨others, t', hothers, hmore, hlast⟩ := ih hmiddle hrest ht₁ (by simpa using hr₁)
            (by rw [hst₁, turned_states, hset, hstates]) <| by
              rw [he₁, turned_ended, turned_ended, hended]
              cases state with
              | active next => rfl
              | ended result => simp only [leaveOut_append, hplace]
          refine ⟨first ++ others, t', ?_, ?_, hlast⟩
          · rw [follow?_append, hfirst]
            exact hothers
          · rw [turnsOf_append, hone, hmore, hevent, leaveOut_append, hplace]
      · rw [turnsOf_cons_of_quiet hturn]
        exact ih hmiddle hrest ht (hregistry.trans hr.symm) (by rw [hst, hstates]) (by rw [he, hended])

/-- Whatever the order of the other events, when the others have had the turns that they have had with a
load that does not succeed, in the same order, they have come equally far, and so has the registry. -/
theorem Orderly.alike_without
    (h : s.Orderly resolver limit)
    {events events' : List Event}
    (hf : s.follow? (resolver.settle limit) events = some s')
    (hno : ∀ found, s'.states[i]? ≠ some (.ended (.ok found)))
    (ht : t.Orderly resolver limit)
    (hregistry : t.registry = s.registry)
    (hstates : List.Forall₂ (BatchState.Alike (resolver.settle limit)) t.states (s.states.eraseIdx i))
    (hended : t.ended = leaveOut i s.ended)
    {t' : Loader}
    (hf' : t.follow? (resolver.settle limit) events' = some t')
    (hsame : turnsOf events' = leaveOut i (turnsOf events)) :
    t'.registry = s'.registry ∧ t'.ended = leaveOut i s'.ended ∧
      List.Forall₂ (BatchState.Alike (resolver.settle limit)) t'.states (s'.states.eraseIdx i) := by
  induction events generalizing s t events' with
  | nil =>
      cases hf
      obtain ⟨hr, he, hst⟩ := ht.follow_quiet hf' hsame
      exact ⟨hr.trans hregistry, he.trans hended, hst ▸ hstates⟩
  | cons event rest ih =>
      obtain ⟨middle, hnext, hrest⟩ := follow?_cons_eq_some_iff.1 hf
      have hmiddle := h.next hnext
      rcases h.next_cases hnext with
        ⟨j, b, numbers, r, state, hturn, hl, hturns, rfl⟩ | ⟨hturn, hr, he, hst⟩
      · have hb := getElem?_states hl
        rw [turnsOf_cons_of_turn hturn, leaveOut_append] at hsame
        by_cases hij : j = i
        · subst hij
          have hunchanged := h.unchanged_of_fails hl hturns hrest hno
          rw [leaveOut_self] at hsame
          refine ih hmiddle hrest ht (by simpa [hunchanged] using hregistry) ?_ ?_ hf' hsame
          · rwa [turned_states, List.eraseIdx_set_eq]
          · rw [leaveOut_turned_self, hended]
        · -- the next turn of the others is that of the same load
          obtain ⟨place, hplace, hget, hset⟩ := exists_place hij s.states
          rw [hplace] at hsame
          obtain ⟨ready, b', numbers', r', state', others, horderly, hr₁, he₁, hst₁, hl', hturns', hrest',
            hothers⟩ := ht.exists_first_turn hf' hsame
          obtain ⟨state₀, hstate₀, halike⟩ := exists_of_forall₂ hstates (hget.trans hb)
          have hb' := getElem?_states hl'
          rw [hst₁, hstate₀] at hb'
          cases hb'
          cases halike
          rw [hregistry] at hturns'
          obtain ⟨rfl, hstate⟩ := hturns'.alike hturns
          refine ih hmiddle hrest horderly (by simp) ?_ ?_ hrest' hothers
          · rw [turned_states, turned_states, hst₁, hset]
            exact forall₂_set hstates _ hstate
          · rw [turned_ended, turned_ended, he₁, hended]
            cases hstate with
            | same state =>
                cases state with
                | active next => rfl
                | ended result => simp only [leaveOut_append, hplace]
            | failures => simp only [leaveOut_append, hplace]
      · rw [turnsOf_cons_of_quiet hturn] at hsame
        exact ih hmiddle hrest ht (hregistry.trans hr.symm) (by rwa [hst]) (by rw [he, hended]) hf' hsame

end Without

end Loader
end TypeGraph
