import TypeGraph.Loading.Loop
import TypeGraph.Proofs.Loading.Events

/-!
# No load is left waiting

As long as a load is on its way, the loop has something queued for it, or it waits for an answer: before
it has asked for its wave it is about to ask; once one of the resolutions that it waits for has failed it
is about to fail; and once all of them have their manifests it is about to resume.

**Results.**
* `Loop.Awake.of_one`: what one load does leaves the others with what they have to do.
* `Loop.Awake.work`, `Loop.Awake.stale`: an event that happens, or cannot happen any more, keeps the loads
  awake.
* `Loop.Awake.isDone`: with nothing queued and no answer missing every load has ended.
-/

namespace TypeGraph
namespace Loop

open Loader (Event)

/-- For each load on its way what it has to do is queued. -/
structure Awake (s : Loader) (line : List Nat) (queued : List Event) : Prop where
  asks : ∀ (i : Nat) (b : Batch), s.loads[i]? = some ⟨.active b, none⟩ → .requests i ∈ queued
  inLine : ∀ (i : Nat) (b : Batch) (numbers : List Nat),
    s.loads[i]? = some ⟨.active b, some numbers⟩ → i ∈ line
  resumes : ∀ (i : Nat) (b : Batch) (numbers : List Nat),
    s.loads[i]? = some ⟨.active b, some numbers⟩ → isReady s.flight numbers = true →
      .resumes i ∈ queued
  fails : ∀ (i : Nat) (b : Batch) (numbers : List Nat),
    s.loads[i]? = some ⟨.active b, some numbers⟩ →
      ∀ number ∈ numbers, ∀ failure, s.flight.failureOf number = some failure →
        .fails i number ∈ queued

section Ready

variable {f f' : Flight} {numbers : List Nat}

theorem isReady_iff :
    isReady f numbers = true ↔ ∀ number ∈ numbers, ∃ m, f.manifestOf number = some m := by
  simp [isReady, Option.isSome_iff_exists]

/-- What a load waits for is there when each of the manifests is. -/
theorem mapM_of_isReady
    (h : isReady f numbers = true) :
    ∃ manifests, numbers.mapM f.manifestOf = some manifests := by
  induction numbers with
  | nil => exact ⟨[], rfl⟩
  | cons number rest ih =>
      rw [isReady_iff, List.forall_mem_cons] at h
      obtain ⟨⟨m, hm⟩, hrest⟩ := h
      obtain ⟨manifests, hmanifests⟩ := ih (isReady_iff.2 hrest)
      exact ⟨m :: manifests, by simp [List.mapM_cons, hm, hmanifests]⟩

theorem isReady_congr
    (h : ∀ number ∈ numbers, f'.answerOf number = f.answerOf number) :
    isReady f' numbers = isReady f numbers := by
  rw [Bool.eq_iff_iff, isReady_iff, isReady_iff]
  refine forall₂_congr fun number hn => ?_
  simp only [Flight.manifestOf_eq_some_iff, h number hn]

end Ready

section Awake

variable {resolver : Resolver} {limit : Option Number} {s s' : Loader} {line : List Nat}
  {queued queued' : List Event} {event : Event}

theorem Awake.mono
    (h : Awake s line queued)
    (hq : ∀ e ∈ queued, e ∈ queued') :
    Awake s line queued' where
  asks i b hl := hq _ (h.asks i b hl)
  inLine := h.inLine
  resumes i b numbers hl hr := hq _ (h.resumes i b numbers hl hr)
  fails i b numbers hl number hn failure hf := hq _ (h.fails i b numbers hl number hn failure hf)

/-- What cannot happen any more is nothing that a load has to do. -/
theorem Awake.stale
    (h : Awake s line queued)
    (hs : s.next? (resolver.settle limit) event = none)
    (hq : ∀ e ∈ queued, e ≠ event → e ∈ queued') :
    Awake s line queued' where
  asks i b hl := by
    refine hq _ (h.asks i b hl) ?_
    rintro rfl
    simp [Loader.next?, Loader.request?, hl] at hs
  inLine := h.inLine
  resumes i b numbers hl hr := by
    refine hq _ (h.resumes i b numbers hl hr) ?_
    rintro rfl
    obtain ⟨manifests, hm⟩ := mapM_of_isReady hr
    simp [Loader.next?, Loader.resume?, hl, hm] at hs
  fails i b numbers hl number hn failure hf := by
    refine hq _ (h.fails i b numbers hl number hn failure hf) ?_
    rintro rfl
    simp [Loader.next?, Loader.fail?, hl, hn, hf] at hs

/-- What one load does leaves the others with what they have to do. -/
theorem Awake.of_one
    (h : Awake s line queued)
    {i : Nat}
    {line' : List Nat}
    (hloads : ∀ j, i ≠ j → s'.loads[j]? = s.loads[j]?)
    (hanswers : ∀ number, s'.flight.answerOf number = s.flight.answerOf number)
    (hline : ∀ j ∈ line, i ≠ j → j ∈ line')
    (hq : ∀ e ∈ queued, ∀ j, i ≠ j →
      e = .requests j ∨ e = .resumes j ∨ (∃ number, e = .fails j number) → e ∈ queued')
    (hasks : ∀ b, s'.loads[i]? = some ⟨.active b, none⟩ → .requests i ∈ queued')
    (hwaits : ∀ b numbers, s'.loads[i]? = some ⟨.active b, some numbers⟩ →
      i ∈ line' ∧ (isReady s'.flight numbers = true → .resumes i ∈ queued') ∧
        ∀ number ∈ numbers, ∀ failure, s'.flight.failureOf number = some failure →
          .fails i number ∈ queued') :
    Awake s' line' queued' := by
  refine ⟨?_, ?_, ?_, ?_⟩
  · intro j b hj
    by_cases hij : i = j
    · subst hij
      exact hasks b hj
    · rw [hloads j hij] at hj
      exact hq _ (h.asks j b hj) j hij (Or.inl rfl)
  · intro j b numbers hj
    by_cases hij : i = j
    · subst hij
      exact (hwaits b numbers hj).1
    · rw [hloads j hij] at hj
      exact hline j (h.inLine j b numbers hj) hij
  · intro j b numbers hj hr
    by_cases hij : i = j
    · subst hij
      exact (hwaits b numbers hj).2.1 hr
    · rw [hloads j hij] at hj
      rw [isReady_congr fun number _ => hanswers number] at hr
      exact hq _ (h.resumes j b numbers hj hr) j hij (Or.inr (Or.inl rfl))
  · intro j b numbers hj number hn failure hf
    by_cases hij : i = j
    · subst hij
      exact (hwaits b numbers hj).2.2 number hn failure hf
    · rw [hloads j hij] at hj
      rw [Flight.failureOf_eq_some_iff, hanswers, ← Flight.failureOf_eq_some_iff] at hf
      exact hq _ (h.fails j b numbers hj number hn failure hf) j hij (Or.inr (Or.inr ⟨number, rfl⟩))

section Happens

variable (h : Awake s line queued)
  (hq : ∀ e ∈ queued, e ≠ event → e ∈ queued')
  (hnew : ∀ job ∈ following resolver limit (lineAfter line event) s' event, job.2 ∈ queued')
include h hq hnew

/-- A load that has asked for its wave hears at once of what is there. -/
theorem Awake.requests
    {i : Nat}
    (he : event = .requests i)
    (hs : s.request? i = some s') :
    Awake s' (lineAfter line event) queued' := by
  subst he
  obtain ⟨b, hl, rfl⟩ := Loader.request?_eq_some_iff.1 hs
  have hself : (s.loads.set i ⟨.active b, some (s.flight.fetchAll b.wave).2⟩)[i]? =
      some ⟨.active b, some (s.flight.fetchAll b.wave).2⟩ :=
    List.getElem?_set_self (List.getElem?_eq_some_iff.1 hl).1
  simp only [following, hself] at hnew
  refine h.of_one (fun j hij => List.getElem?_set_ne hij) (Flight.answerOf_fetchAll s.flight b.wave)
    ?_ ?_ ?_ ?_
  · intro j hj hij
    simp [lineAfter, List.mem_erase_of_ne (Ne.symm hij), hj]
  · rintro e he j hij (rfl | rfl | ⟨number, rfl⟩) <;> exact hq _ he (by simp [Ne.symm hij])
  · intro b' hj
    rw [hself] at hj
    cases hj
  · intro b' numbers hj
    rw [hself] at hj
    cases hj
    refine ⟨by simp [lineAfter], fun hr => ?_, fun number hn failure hf => ?_⟩
    · exact hnew (1, .resumes i) (List.mem_append_right _ (by simp [hr]))
    · refine hnew (1, .fails i number)
        (List.mem_append_left _ (List.mem_flatMap.2 ⟨number, hn, ?_⟩))
      have hans := Flight.failureOf_eq_some_iff.1 hf
      obtain ⟨⟨identifier, answer⟩, hr, ha⟩ := Option.bind_eq_some_iff.1 hans
      obtain rfl : answer = some (.error failure) := ha
      simp [expects, hr]

/-- Those who have been waiting for an answer hear of it. -/
theorem Awake.answers
    {answer : String → Except Failure Manifest}
    {f : Flight}
    {number : Nat}
    (he : event = .answers number)
    (hf : s.flight.answer? answer number = some f)
    (hs : s' = { s with flight := f }) :
    Awake s' (lineAfter line event) queued' := by
  subst he hs
  simp only [following, lineAfter, List.mem_cons, List.mem_flatMap] at hnew
  have hother : ∀ other, number ≠ other → f.answerOf other = s.flight.answerOf other :=
    fun other ho => Flight.answerOf_answer_of_ne hf ho
  refine ⟨?_, h.inLine, ?_, ?_⟩
  · exact fun i b hl => hq _ (h.asks i b hl) (by simp)
  · intro i b numbers hl hr
    by_cases hn : number ∈ numbers
    · refine hnew (3, .resumes i) (Or.inr ⟨i, h.inLine i b numbers hl, ?_⟩)
      obtain ⟨m, hm⟩ := isReady_iff.1 hr number hn
      have hfailure : f.failureOf number = none := by
        rw [Flight.manifestOf_eq_some_iff] at hm
        simp [Flight.failureOf, hm]
      simp [hears, hl, hn, hfailure, hr]
    · rw [isReady_congr fun other ho => hother other fun he => hn (he ▸ ho)] at hr
      exact hq _ (h.resumes i b numbers hl hr) (by simp)
  · intro i b numbers hl other ho failure hfailure
    by_cases he : number = other
    · subst he
      refine hnew (3, .fails i number) (Or.inr ⟨i, h.inLine i b numbers hl, ?_⟩)
      simp only at hfailure
      simp [hears, hl, ho, hfailure]
    · rw [Flight.failureOf_eq_some_iff, hother other he, ← Flight.failureOf_eq_some_iff] at hfailure
      exact hq _ (h.fails i b numbers hl other ho failure hfailure) (by simp)

/-- After its turn a load asks for its next wave, if it has not ended. -/
theorem Awake.turned
    {i : Nat}
    {b : Batch}
    {awaited : Option (List Nat)}
    {turn : TypeRegistry × BatchState}
    (he : event = .resumes i ∨ ∃ number, event = .fails i number)
    (hl : s.loads[i]? = some ⟨.active b, awaited⟩)
    (hs : s' = s.turned i b turn) :
    Awake s' (lineAfter line event) queued' := by
  subst hs
  have hself : (s.turned i b turn).loads[i]? = some ⟨turn.2, none⟩ := by
    rw [Loader.turned_loads, List.getElem?_set_self (List.getElem?_eq_some_iff.1 hl).1]
  have hline : lineAfter line event = line := by
    rcases he with rfl | ⟨number, rfl⟩ <;> rfl
  refine h.of_one (i := i) ?_ ?_ ?_ ?_ ?_ ?_
  · intro j hij
    rw [Loader.turned_loads, List.getElem?_set_ne hij]
  · intro number
    rw [Flight.answerOf, Loader.turned_resolutions, Flight.answerOf]
  · intro j hj _
    rwa [hline]
  · intro e hmem j hij hj
    refine hq e hmem ?_
    rintro rfl
    rcases he with rfl | ⟨number, rfl⟩ <;> rcases hj with hj | hj | ⟨other, hj⟩ <;> cases hj <;>
      exact hij rfl
  · intro b' hb'
    have hjob : (0, Event.requests i) ∈
        following resolver limit (lineAfter line event) (s.turned i b turn) event := by
      rcases he with rfl | ⟨number, rfl⟩ <;> simp only [following, hb', List.mem_singleton]
    exact hnew _ hjob
  · intro b' numbers hb'
    simp only [hself, Option.some.injEq, Load.mk.injEq, reduceCtorEq, and_false] at hb'

/-- What happens leads to what it makes possible. -/
theorem Awake.work
    (hs : s.next? (resolver.settle limit) event = some s') :
    Awake s' (lineAfter line event) queued' := by
  cases event with
  | requests i => exact h.requests hq hnew rfl hs
  | answers number =>
      obtain ⟨f, hf, he⟩ := Option.map_eq_some_iff.1 hs
      exact h.answers hq hnew rfl hf he.symm
  | forgets number =>
      obtain ⟨f, hf, rfl⟩ := Option.map_eq_some_iff.1 hs
      obtain ⟨-, rfl⟩ := Flight.forget?_eq_some_iff.1 hf
      have hsame : ∀ e ∈ queued, (∀ number, e ≠ .forgets number) → e ∈ queued' :=
        fun e he hne => hq e he (hne number)
      exact ⟨fun i b hl => hsame _ (h.asks i b hl) (by simp), h.inLine,
        fun i b numbers hl hr => hsame _ (h.resumes i b numbers hl hr) (by simp),
        fun i b numbers hl other ho failure hf =>
          hsame _ (h.fails i b numbers hl other ho failure hf) (by simp)⟩
  | resumes i =>
      obtain ⟨b, numbers, manifests, hl, -, he⟩ := Loader.resume?_eq_some_iff.1 hs
      exact h.turned hq hnew (Or.inl rfl) hl he
  | fails i number =>
      obtain ⟨b, numbers, failure, hl, -, -, he⟩ := Loader.fail?_eq_some_iff.1 hs
      exact h.turned hq hnew (Or.inr ⟨number, rfl⟩) hl he

end Happens

/-- With nothing queued and no answer missing every load has ended. -/
theorem Awake.isDone
    (h : Awake s line [])
    (ho : s.Orderly resolver limit)
    (hp : s.flight.pending = []) :
    s.isDone = true := by
  rw [Loader.isDone, List.all_eq_true]
  intro load hload
  obtain ⟨i, hi⟩ := List.mem_iff_getElem?.1 hload
  obtain ⟨state, awaited⟩ := load
  cases state with
  | ended result => rfl
  | active b =>
      exfalso
      cases awaited with
      | none => simpa using h.asks i b hi
      | some numbers =>
          have hready : isReady s.flight numbers = true := by
            refine isReady_iff.2 fun number hn => ?_
            obtain ⟨identifier, -, hidentifier⟩ := exists_of_mem_forall₂ (ho.awaits i b numbers hi) hn
            cases hans : s.flight.answerOf number with
            | none =>
                have hpending := Flight.mem_pending_iff.2 ⟨Flight.identifierOf_lt hidentifier, hans⟩
                simp [hp] at hpending
            | some answer =>
                cases answer with
                | ok m => exact ⟨m, Flight.manifestOf_eq_some_iff.2 hans⟩
                | error failure =>
                    have hfails := h.fails i b numbers hi number hn failure
                      (Flight.failureOf_eq_some_iff.2 hans)
                    simp at hfails
          simpa using h.resumes i b numbers hi hready

end Awake

/-- When the loads begin each is about to ask for its roots. -/
theorem awake_start
    (r : TypeRegistry)
    (groups : List (List String)) :
    Awake (start r groups).loader (start r groups).line ((start r groups).queue.map Prod.snd) := by
  have hload : ∀ (i : Nat) (load : Load), (start r groups).loader.loads[i]? = some load →
      i < groups.length ∧ load.awaited = none := by
    intro i load hl
    simp only [start, Loader.start, List.getElem?_map] at hl
    obtain ⟨identifiers, hi, rfl⟩ := Option.map_eq_some_iff.1 hl
    exact ⟨(List.getElem?_eq_some_iff.1 hi).1, rfl⟩
  refine ⟨?_, ?_, ?_, ?_⟩
  · intro i b hl
    obtain ⟨hi, -⟩ := hload i _ hl
    simp [start, hi]
  · intro i b numbers hl
    cases (hload i _ hl).2
  · intro i b numbers hl
    cases (hload i _ hl).2
  · intro i b numbers hl
    cases (hload i _ hl).2

end Loop
end TypeGraph
