import TypeGraph.Proofs.Loading.Awake
import TypeGraph.Proofs.Loading.Waited

/-!
# The loop comes to its end

Whatever the loop does are events of its loader, so that what holds after any events holds after its
ticks.  Between two turns of loads the queue is worked off within some ticks, then the late answers
come, and once these are worked off as well every load has ended.  There are only so many turns, and so
the loop comes to its end within its bound.

**Results.**
* `Loop.follow_run`: a run of the loop is a sequence of events.
* `Loop.Paced.tick`: a tick brings the end closer.
* `Loop.isDone_complete`: every load ends.
* `Loop.complete_induction`: what turns keep holds when every load has ended.
-/

namespace TypeGraph

namespace Flight

variable {f f' : Flight} {answer : String → Except Failure Manifest} {number other : Nat}

/-- What has no answer can be answered. -/
theorem exists_answer_of_mem_pending
    (answer : String → Except Failure Manifest)
    (h : number ∈ f.pending) :
    ∃ f', f.answer? answer number = some f' := by
  obtain ⟨hlt, hnone⟩ := mem_pending_iff.1 h
  have hr : f.resolutions[number]? = some f.resolutions[number] := List.getElem?_eq_getElem hlt
  rw [answerOf, hr] at hnone
  have hfound : f.resolutions[number]? = some ⟨f.resolutions[number].identifier, none⟩ := by
    rw [hr, ← show f.resolutions[number].answer = none from hnone]
  exact ⟨_, answer?_eq_some_iff.2 ⟨_, hfound, rfl⟩⟩

/-- What has no answer after an answer had none before, and is another resolution. -/
theorem mem_pending_of_answer
    (h : f.answer? answer number = some f')
    (ho : other ∈ f'.pending) :
    other ∈ f.pending ∧ other ≠ number := by
  obtain ⟨hlt, hnone⟩ := mem_pending_iff.1 ho
  have hne : other ≠ number := by
    rintro rfl
    obtain ⟨identifier, -, -, hans⟩ := answerOf_answer h
    rw [hnone] at hans
    cases hans
  rw [answerOf_answer_of_ne h hne.symm] at hnone
  obtain ⟨identifier, -, rfl⟩ := answer?_eq_some_iff.1 h
  exact ⟨mem_pending_iff.2 ⟨by simpa using hlt, hnone⟩, hne⟩

end Flight

namespace Loader

theorem isDone_iff
    {s : Loader} :
    s.isDone = true ↔ ∀ state ∈ s.states, ∃ result, state = .ended result := by
  rw [isDone, List.all_eq_true, states, List.forall_mem_map]
  refine forall₂_congr fun load _ => ?_
  split <;> simp_all

end Loader

namespace Loop

open Loader (Event)

variable {resolver : Resolver} {limit : Option Number}

section Follow

variable (resolver limit)

/-- What the loop does with a queued event is an event of its loader, or nothing. -/
theorem follow_pass
    (loop : Loop)
    (job : Nat × Event) :
    ∃ events, loop.loader.follow? (resolver.settle limit) events =
      some (loop.pass resolver limit job).loader := by
  obtain ⟨ticks, event⟩ := job
  cases ticks with
  | succ ticks => exact ⟨[], rfl⟩
  | zero =>
      cases hs : loop.loader.next? (resolver.settle limit) event with
      | none => exact ⟨[], by simp [Loader.follow?, pass, work, hs]⟩
      | some s => exact ⟨[event], by simp [Loader.follow?, pass, work, hs]⟩

theorem follow_foldl
    (jobs : List (Nat × Event))
    (loop : Loop) :
    ∃ events, loop.loader.follow? (resolver.settle limit) events =
      some (jobs.foldl (pass resolver limit) loop).loader := by
  induction jobs generalizing loop with
  | nil => exact ⟨[], rfl⟩
  | cons job rest ih =>
      obtain ⟨first, hfirst⟩ := follow_pass resolver limit loop job
      obtain ⟨others, hothers⟩ := ih (loop.pass resolver limit job)
      exact ⟨first ++ others, by rw [Loader.follow?_append, hfirst]; exact hothers⟩

/-- A tick is a sequence of events. -/
theorem follow_tick
    (loop : Loop) :
    ∃ events, loop.loader.follow? (resolver.settle limit) events =
      some (loop.tick resolver limit).loader := by
  unfold tick
  split
  · exact ⟨[], rfl⟩
  · exact follow_foldl resolver limit loop.queue { loop with queue := [] }

/-- So are several ticks. -/
theorem follow_run
    (ticks : Nat)
    (loop : Loop) :
    ∃ events, loop.loader.follow? (resolver.settle limit) events =
      some (run resolver limit ticks loop).loader := by
  induction ticks generalizing loop with
  | zero => exact ⟨[], rfl⟩
  | succ ticks ih =>
      rw [run]
      split
      · exact ⟨[], rfl⟩
      · obtain ⟨first, hfirst⟩ := follow_tick resolver limit loop
        obtain ⟨others, hothers⟩ := ih (loop.tick resolver limit)
        exact ⟨first ++ others, by rw [Loader.follow?_append, hfirst]; exact hothers⟩

end Follow

/-- A bound on the ticks until an event is worked off, with all that comes of it but for a turn. -/
def rank : Nat × Event → Nat
  | (ticks, .requests _) => ticks + 7
  | (ticks, .answers _) => ticks + 5
  | (ticks, .forgets _) => ticks + 1
  | (ticks, .resumes _) => ticks + 1
  | (ticks, .fails _ _) => ticks + 1

section Rank

variable {line : List Nat} {s : Loader} {i number : Nat} {job : Nat × Event} {ticks : Nat}

theorem rank_pos
    (job : Nat × Event) :
    0 < rank job := by
  obtain ⟨ticks, event⟩ := job
  cases event <;> simp [rank]

/-- An event that waits for a tick less has a smaller rank. -/
theorem rank_succ
    (ticks : Nat)
    (event : Event) :
    rank (ticks + 1, event) = rank (ticks, event) + 1 := by
  cases event <;> simp +arith only [rank]

theorem rank_of_hears
    (h : job ∈ hears s number i) :
    rank job = 4 := by
  unfold hears at h
  split at h
  · split at h
    · split at h
      · obtain rfl := List.mem_singleton.1 h
        rfl
      · split at h
        · obtain rfl := List.mem_singleton.1 h
          rfl
        · cases h
    · cases h
  · cases h

theorem rank_of_expects
    (h : job ∈ expects resolver limit s i number) :
    rank job ≤ 6 := by
  unfold expects at h
  split at h
  · split at h
    · cases h
    · obtain rfl := List.mem_singleton.1 h
      simp [rank]
  · obtain rfl := List.mem_singleton.1 h
    simp [rank]
  · cases h

/-- What a request leads to has a smaller rank. -/
theorem rank_of_request
    (h : job ∈ following resolver limit line s (.requests i)) :
    rank job < rank (0, .requests i) := by
  simp only [following] at h
  split at h
  · rcases List.mem_append.1 h with h | h
    · obtain ⟨number, -, h⟩ := List.mem_flatMap.1 h
      exact Nat.lt_succ_of_le (rank_of_expects h)
    · split at h
      · obtain rfl := List.mem_singleton.1 h
        simp [rank]
      · cases h
  · cases h

/-- So has what an answer leads to. -/
theorem rank_of_answer
    (h : job ∈ following resolver limit line s (.answers number)) :
    rank job < rank (0, .answers number) := by
  simp only [following, List.mem_cons, List.mem_flatMap] at h
  rcases h with rfl | ⟨i, -, h⟩
  · simp [rank]
  · rw [rank_of_hears h]
    simp [rank]

/-- A turn leads to a request. -/
theorem rank_of_turn
    {event : Event}
    (he : event = .resumes i ∨ ∃ number, event = .fails i number)
    (h : job ∈ following resolver limit line s event) :
    rank job = 7 := by
  have hjob : job = (0, .requests i) := by
    rcases he with rfl | ⟨number, rfl⟩ <;> simp only [following] at h <;> split at h <;> simp_all
  rw [hjob]
  rfl

/-- Of the events of a tick those still to come, and those that are queued again, are worked off within
some ticks, this one not counted. -/
def Settles (old queue : List (Nat × Event)) (ticks : Nat) : Prop :=
  (∀ job ∈ old, rank job ≤ ticks + 1) ∧ ∀ job ∈ queue, rank job ≤ ticks

/-- An event of a tick is worked off: what is queued for it has a smaller rank. -/
theorem Settles.pass
    {old queue new : List (Nat × Event)}
    (h : Settles (job :: old) queue ticks)
    (hnew : ∀ next ∈ new, rank next < rank job) :
    Settles old (queue ++ new) ticks := by
  refine ⟨fun next hn => h.1 next (List.mem_cons_of_mem _ hn), fun next hn => ?_⟩
  rcases List.mem_append.1 hn with hn | hn
  · exact h.2 next hn
  · have hjob := h.1 job List.mem_cons_self
    have := hnew next hn
    omega

end Rank

/-- Without another turn, nothing is left to do after some ticks.  The late answers come when the queue
has run dry; from then on what has no answer is about to get it. -/
inductive Calm (f : Flight) (old queue : List (Nat × Event)) : Nat → Prop
  | late {ticks : Nat} :
      ticks ≤ 5 →
      Settles old queue ticks →
      (∀ number ∈ f.pending, .answers number ∈ (old ++ queue).map Prod.snd) →
      Calm f old queue ticks
  | busy {ticks : Nat} :
      ticks ≤ 7 →
      Settles old queue ticks →
      Calm f old queue (ticks + 6)

section Calm

variable {f f' : Flight} {old queue new : List (Nat × Event)} {job : Nat × Event} {ticks : Nat}

theorem Calm.le
    (h : Calm f old queue ticks) :
    ticks ≤ 13 := by
  cases h <;> omega

/-- Without a turn it stays calm while the events of a tick are worked off. -/
theorem Calm.pass
    (h : Calm f (job :: old) queue ticks)
    (hnew : ∀ next ∈ new, rank next < rank job)
    (hf : rank job ≤ 6 → ∀ number ∈ f'.pending, number ∈ f.pending ∧
      (.answers number = job.2 → .answers number ∈ new.map Prod.snd)) :
    Calm f' old (queue ++ new) ticks := by
  cases h with
  | busy hle hs => exact .busy hle (hs.pass hnew)
  | late hle hs hp =>
      refine .late hle (hs.pass hnew) fun number hn => ?_
      have hjob := hs.1 job List.mem_cons_self
      obtain ⟨hold, hsame⟩ := hf (by omega) number hn
      have hmem := hp number hold
      simp only [List.cons_append, List.map_cons, List.mem_cons, List.map_append,
        List.mem_append] at hmem ⊢
      rcases hmem with he | hmem | hmem
      · exact Or.inr (Or.inr (hsame he))
      · exact Or.inl hmem
      · exact Or.inr (Or.inl hmem)

/-- After a turn the queue is worked off anew. -/
theorem Calm.turned
    (f' : Flight)
    (h : Calm f (job :: old) queue ticks)
    (hnew : ∀ next ∈ new, rank next = 7) :
    Calm f' old (queue ++ new) 13 := by
  have hs : ∃ ticks ≤ 7, Settles (job :: old) queue ticks := by
    cases h with
    | late hle hs => exact ⟨_, by omega, hs⟩
    | busy hle hs => exact ⟨_, hle, hs⟩
  obtain ⟨ticks, hle, hold, hqueue⟩ := hs
  have hseven : Settles old (queue ++ new) 7 := by
    refine ⟨fun next hn => ?_, fun next hn => ?_⟩
    · have := hold next (List.mem_cons_of_mem _ hn)
      omega
    · rcases List.mem_append.1 hn with hn | hn
      · exact (hqueue next hn).trans hle
      · exact (hnew next hn).le
  exact .busy (Nat.le_refl 7) hseven

end Calm

/-- While the events of a tick are worked off, there is at most so much to do after it: the turns that
are left, and the ticks to the next of them. -/
structure Paced (resolver : Resolver) (limit : Option Number) (loop : Loop)
    (old : List (Nat × Event)) (total ticks : Nat) : Prop where
  orderly : loop.loader.Orderly resolver limit
  awake : Awake loop.loader loop.line ((old ++ loop.queue).map Prod.snd)
  waits : Run.Waits resolver loop.loader.states total
  calm : Calm loop.loader.flight old loop.queue ticks

section Paced

variable {loop : Loop} {old : List (Nat × Event)} {event : Event} {s : Loader}
  {total ticks : Nat}

/-- An event that cannot happen any more is passed over. -/
theorem Paced.stale
    (h : Paced resolver limit loop ((0, event) :: old) total ticks)
    (hs : loop.loader.next? (resolver.settle limit) event = none) :
    Paced resolver limit loop old total ticks := by
  have hcalm : Calm loop.loader.flight old (loop.queue ++ []) ticks := by
    refine h.calm.pass (by simp) fun _ number hn => ⟨hn, ?_⟩
    rintro rfl
    obtain ⟨f, hf⟩ := Flight.exists_answer_of_mem_pending (resolver.settle limit) hn
    simp [Loader.next?, hf] at hs
  rw [List.append_nil] at hcalm
  exact ⟨h.orderly, h.awake.stale hs fun e he hne => by simpa [hne] using he, h.waits, hcalm⟩

/-- An event that happens, with what it leads to, keeps the loads awake. -/
theorem Paced.awake_work
    (h : Paced resolver limit loop ((0, event) :: old) total ticks)
    (hs : loop.loader.next? (resolver.settle limit) event = some s) :
    Awake s (lineAfter loop.line event)
      ((old ++ (loop.queue ++
        following resolver limit (lineAfter loop.line event) s event)).map Prod.snd) := by
  refine h.awake.work (fun e he hne => ?_) (fun job hjob => ?_) hs
  · simp only [List.cons_append, List.map_cons, List.mem_cons, hne, false_or, List.map_append,
      List.mem_append] at he ⊢
    exact he.imp_right Or.inl
  · exact List.mem_map_of_mem (List.mem_append_right _ (List.mem_append_right _ hjob))

/-- An event that is not the turn of a load brings no delay. -/
theorem Paced.quiet
    (h : Paced resolver limit loop ((0, event) :: old) total ticks)
    (hs : loop.loader.next? (resolver.settle limit) event = some s)
    (hstates : s.states = loop.loader.states)
    (hrank : ∀ job ∈ following resolver limit (lineAfter loop.line event) s event,
      rank job < rank (0, event))
    (hf : rank (0, event) ≤ 6 → ∀ number ∈ s.flight.pending,
      number ∈ loop.loader.flight.pending ∧ .answers number ≠ event) :
    Paced resolver limit (loop.work resolver limit event) old total ticks := by
  have hcalm := h.calm.pass hrank fun hle number hn =>
    ⟨(hf hle number hn).1, fun he => absurd he (hf hle number hn).2⟩
  rw [work, hs]
  exact ⟨h.orderly.next hs, h.awake_work hs, hstates ▸ h.waits, hcalm⟩

/-- A turn counts. -/
theorem Paced.turned
    {i : Nat}
    (h : Paced resolver limit loop ((0, event) :: old) total ticks)
    (hs : loop.loader.next? (resolver.settle limit) event = some s)
    (he : event = .resumes i ∨ ∃ number, event = .fails i number)
    (ht : ∃ b numbers r state, loop.loader.loads[i]? = some ⟨.active b, some numbers⟩ ∧
      Run.Turn (resolver.settle limit) loop.loader.registry b r state ∧
        s = loop.loader.turned i b (r, state)) :
    Paced resolver limit (loop.work resolver limit event) old (total + 1) 13 := by
  have hrank : ∀ job ∈ following resolver limit (lineAfter loop.line event) s event, rank job = 7 :=
    fun job hjob => rank_of_turn he hjob
  have hwaits : Run.Waits resolver s.states (total + 1) := by
    obtain ⟨b, awaited, r, state, hl, hturn, rfl⟩ := ht
    rw [Loader.turned_states]
    exact h.waits.turn hturn (h.orderly.lawful b (Loader.mem_states hl)) (Loader.getElem?_states hl)
  rw [work, hs]
  exact ⟨h.orderly.next hs, h.awake_work hs, hwaits, h.calm.turned s.flight hrank⟩

/-- What an event of a tick does: there is as much to do as before, or a load has had its turn. -/
theorem Paced.work
    (h : Paced resolver limit loop ((0, event) :: old) total ticks) :
    Paced resolver limit (loop.work resolver limit event) old total ticks ∨
      Paced resolver limit (loop.work resolver limit event) old (total + 1) 13 := by
  cases hs : loop.loader.next? (resolver.settle limit) event with
  | none =>
      rw [Loop.work, hs]
      exact Or.inl (h.stale hs)
  | some s =>
      cases event with
      | requests i =>
          obtain ⟨b, hl, rfl⟩ := Loader.request?_eq_some_iff.1 hs
          refine Or.inl (h.quiet hs ?_ (fun job => rank_of_request) fun hle => ?_)
          · simp only [Loader.states, List.map_set]
            exact set_of_getElem? (Loader.getElem?_states hl)
          · simp [rank] at hle
      | answers number =>
          obtain ⟨f, hf, rfl⟩ := Option.map_eq_some_iff.1 hs
          refine Or.inl (h.quiet hs rfl (fun job => rank_of_answer) fun _ other ho => ?_)
          obtain ⟨hold, hne⟩ := Flight.mem_pending_of_answer hf ho
          exact ⟨hold, by simpa using hne⟩
      | forgets number =>
          obtain ⟨f, hf, rfl⟩ := Option.map_eq_some_iff.1 hs
          obtain ⟨-, rfl⟩ := Flight.forget?_eq_some_iff.1 hf
          exact Or.inl (h.quiet hs rfl (by simp [following]) fun _ other ho => ⟨ho, by simp⟩)
      | resumes i =>
          exact Or.inr (h.turned hs (Or.inl rfl) (h.orderly.turn_of_resume hs))
      | fails i number =>
          exact Or.inr (h.turned hs (Or.inr ⟨number, rfl⟩) (h.orderly.turn_of_fail hs))

/-- An event whose time has not come is queued for the next tick. -/
theorem Paced.pass
    {job : Nat × Event}
    (h : Paced resolver limit loop (job :: old) total ticks) :
    Paced resolver limit (loop.pass resolver limit job) old total ticks ∨
      Paced resolver limit (loop.pass resolver limit job) old (total + 1) 13 := by
  obtain ⟨wait, event⟩ := job
  cases wait with
  | zero => exact h.work
  | succ wait =>
      refine Or.inl ⟨h.orderly, h.awake.mono fun e he => ?_, h.waits,
        h.calm.pass (by simp [rank_succ]) fun _ number hn => ⟨hn, by simp_all⟩⟩
      simp only [Loop.pass, List.cons_append, List.map_cons, List.mem_cons, List.map_append,
        List.mem_append, List.not_mem_nil, or_false, List.map_nil] at he ⊢
      tauto

/-- The events of a tick are worked off. -/
theorem Paced.foldl
    (h : Paced resolver limit loop old total ticks) :
    ∃ total' ticks', Paced resolver limit (old.foldl (Loop.pass resolver limit) loop) [] total' ticks' ∧
      14 * total + ticks' ≤ 14 * total' + ticks := by
  induction old generalizing loop total ticks with
  | nil => exact ⟨total, ticks, h, Nat.le_refl _⟩
  | cons job rest ih =>
      rcases h.pass with hpass | hpass
      · exact ih hpass
      · obtain ⟨total', ticks', hp, hle⟩ := ih hpass
        exact ⟨total', ticks', hp, by omega⟩

/-- With nothing queued the late answers come, or every load has ended. -/
theorem Paced.dry
    (h : Paced resolver limit loop [] total ticks)
    (hq : loop.queue = [])
    (hdone : loop.loader.isDone ≠ true) :
    ∃ ticks' < ticks, Paced resolver limit (loop.tick resolver limit) [] total ticks' := by
  have hlate : loop.loader.flight.pending ≠ [] := by
    intro hp
    have hawake := h.awake
    rw [hq] at hawake
    exact hdone (hawake.isDone h.orderly hp)
  have htick : loop.tick resolver limit =
      { loop with queue := loop.loader.flight.pending.map fun number => (0, .answers number) } := by
    simp only [tick, hq]
  rw [htick]
  refine ⟨5, ?_, h.orderly, ?_, h.waits, ?_⟩
  · cases h.calm with
    | busy => omega
    | late _ _ hp =>
        obtain ⟨number, hn⟩ := List.exists_mem_of_ne_nil _ hlate
        simp [hq] at hp
        exact absurd hn (hp number)
  · refine h.awake.mono fun e he => ?_
    simp [hq] at he
  · refine .late (Nat.le_refl 5) ⟨by simp, ?_⟩ ?_
    · simp [rank]
    · simp

/-- A tick brings the end closer. -/
theorem Paced.tick
    (h : Paced resolver limit loop [] total ticks)
    (hdone : loop.loader.isDone ≠ true) :
    ∃ total' ticks', Paced resolver limit (loop.tick resolver limit) [] total' ticks' ∧
      14 * total + ticks' < 14 * total' + ticks := by
  cases hq : loop.queue with
  | nil =>
      obtain ⟨ticks', hlt, hp⟩ := h.dry hq hdone
      exact ⟨total, ticks', hp, by omega⟩
  | cons job rest =>
      have hpos := rank_pos job
      have hsoon : ∃ ticks' < ticks, Calm loop.loader.flight (job :: rest) [] ticks' := by
        have hcalm := h.calm
        rw [hq] at hcalm
        cases hcalm with
        | late hle hs hp =>
            have := hs.2 job List.mem_cons_self
            refine ⟨ticks - 1, by omega, .late (by omega) ⟨fun next hn => ?_, by simp⟩ ?_⟩
            · have := hs.2 next hn
              omega
            · simpa using hp
        | @busy wait hle hs =>
            have := hs.2 job List.mem_cons_self
            refine ⟨wait - 1 + 6, by omega, .busy (by omega) ⟨fun next hn => ?_, by simp⟩⟩
            have := hs.2 next hn
            omega
      obtain ⟨ticks', hlt, hcalm⟩ := hsoon
      have hbegin : Paced resolver limit { loop with queue := [] } (job :: rest) total ticks' :=
        ⟨h.orderly, h.awake.mono fun e he => by simpa [hq] using he, h.waits, hcalm⟩
      obtain ⟨total', after, hp, hle⟩ := hbegin.foldl
      refine ⟨total', after, ?_, by omega⟩
      simpa only [Loop.tick, hq] using hp

/-- Several ticks bring it closer by their number, unless every load has ended before. -/
theorem Paced.run
    (count : Nat)
    (h : Paced resolver limit loop [] total ticks) :
    (run resolver limit count loop).loader.isDone = true ∨
      ∃ total' ticks', Paced resolver limit (run resolver limit count loop) [] total' ticks' ∧
        14 * total + ticks' + count ≤ 14 * total' + ticks := by
  induction count generalizing loop total ticks with
  | zero => exact Or.inr ⟨total, ticks, h, by omega⟩
  | succ count ih =>
      rw [Loop.run]
      split
      · rename_i hdone
        exact Or.inl hdone
      · rename_i hdone
        obtain ⟨total', ticks', hp, hlt⟩ := h.tick hdone
        rcases ih hp with hend | ⟨total'', ticks'', hp', hle⟩
        · exact Or.inl hend
        · exact Or.inr ⟨total'', ticks'', hp', by omega⟩

theorem paced_start
    {r : TypeRegistry}
    (hc : r.catalog.Coherent)
    (groups : List (List String)) :
    Paced resolver limit (start r groups) [] 0 13 := by
  refine ⟨.start hc (Flight.sound_empty _) groups, awake_start r groups, ?_, ?_⟩
  · have hstates : (start r groups).loader.states =
        groups.map fun identifiers => .active (.start r.catalog identifiers) := by
      simp [start, Loader.start, Loader.states, Loader.opening]
    rw [hstates]
    exact .start resolver r.catalog groups
  · refine .busy (Nat.le_refl 7) ⟨by simp, ?_⟩
    simp [start, rank]

end Paced

section Complete

variable {J : TypeRegistry → List Nat → List BatchState → Prop} {r : TypeRegistry}
  {groups : List (List String)}

theorem states_start
    (r : TypeRegistry)
    (f : Flight)
    (groups : List (List String)) :
    (Loader.start r f groups).states =
      groups.map fun identifiers => .active (.start r.catalog identifiers) := by
  simp [Loader.start, Loader.states, Loader.opening]

/-- What turns keep holds after any number of ticks. -/
theorem run_kept
    (hk : Run.Kept resolver limit J)
    (hc : r.catalog.Coherent)
    (hJ : J r [] (groups.map fun identifiers => .active (.start r.catalog identifiers)))
    (count : Nat) :
    (run resolver limit count (start r groups)).loader.Orderly resolver limit ∧
      J (run resolver limit count (start r groups)).loader.registry
        (run resolver limit count (start r groups)).loader.ended
        (run resolver limit count (start r groups)).loader.states := by
  obtain ⟨events, hf⟩ := follow_run resolver limit count (start r groups)
  refine Loader.Orderly.follow hk (.start hc (Flight.sound_empty _) groups) ?_ hf
  rw [states_start]
  exact hJ

/-- When every load has ended the loop stays as it is. -/
theorem run_of_isDone
    {loop : Loop}
    {count more : Nat}
    (hdone : (run resolver limit count loop).loader.isDone = true)
    (hle : count ≤ more) :
    run resolver limit more loop = run resolver limit count loop := by
  induction count generalizing loop more with
  | zero =>
      cases more with
      | zero => rfl
      | succ more => exact if_pos hdone
  | succ count ih =>
      obtain ⟨more, rfl⟩ : ∃ rest, more = rest + 1 := ⟨more - 1, by omega⟩
      rw [run] at hdone ⊢
      rw [run]
      split at hdone
      · rename_i h
        rw [if_pos h, if_pos h]
      · rename_i h
        rw [if_neg h, if_neg h]
        exact ih hdone (by omega)

variable (hc : r.catalog.Coherent)
include hc

/-- Nothing is left to do after as many ticks as are enough. -/
theorem isDone_of_enough
    {count : Nat}
    (hcount : enough resolver groups ≤ count) :
    (run resolver limit count (start r groups)).loader.isDone = true := by
  rcases (paced_start hc groups).run count with hdone | ⟨total, ticks, hp, hle⟩
  · exact hdone
  · exfalso
    have htotal := hp.waits.le
    rw [(run_kept (.length resolver limit groups.length) hc (by simp) count).2] at htotal
    unfold enough at hcount
    omega

/-- Every load ends. -/
theorem isDone_complete :
    (complete resolver limit r groups).isDone = true :=
  isDone_of_enough hc (Nat.le_refl _)

/-- What turns keep holds when every load has ended. -/
theorem complete_induction
    (hk : Run.Kept resolver limit J)
    (groups : List (List String))
    (hJ : J r [] (groups.map fun identifiers => .active (.start r.catalog identifiers))) :
    (complete resolver limit r groups).registry.catalog.Coherent ∧
      (∀ state ∈ (complete resolver limit r groups).states, ∃ result, state = .ended result) ∧
      J (complete resolver limit r groups).registry (complete resolver limit r groups).ended
        (complete resolver limit r groups).states := by
  obtain ⟨horderly, hkept⟩ := run_kept hk hc hJ (enough resolver groups)
  exact ⟨horderly.coherent, Loader.isDone_iff.1 (isDone_complete hc), hkept⟩

/-- Every group is loaded. -/
theorem length_states
    (resolver : Resolver)
    (limit : Option Number)
    (groups : List (List String)) :
    (complete resolver limit r groups).states.length = groups.length :=
  (complete_induction hc (.length resolver limit groups.length) groups (by simp)).2.2

end Complete

end Loop
end TypeGraph
