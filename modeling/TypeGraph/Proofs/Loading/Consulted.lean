import TypeGraph.Proofs.Loading.Alone
import TypeGraph.Proofs.Loading.BreadthFirst

/-!
# What a load learns from its resolver

A load looks at its resolver only to ask for identifiers.  So two resolvers that give the same answers to
what a load alone asks one of them for lead it through the same waves, in whatever order the answers come:
the same is asked for, and the outcomes agree.  If they also answer late to the same identifiers, then the
loop goes through the same ticks.  The resolvers may list different names, and then their loops are given
different numbers of ticks, but ticks beyond the end of all loads change nothing.

**Results.**
* `AnswerWavesAlike.wave_iff`, `Alone.congr`: where the waves are answered alike the waves are the same,
  and so are the outcomes.
* `Loader.agree_of_answers`: so it is where all that is asked for is answered alike.
* `Loop.complete_congr`: resolvers that are late alike, too, lead to the same loader.
* `Loader.answered_of_loaded`: where every load succeeds, all that is asked for is answered with a manifest.
-/

namespace TypeGraph

/-- Two resolvers give the same answer to an identifier, the same manifest or the same failure, and it
only comes with the limit for both of them or for neither. -/
structure Resolver.AnswersAlike (first second : Resolver) (limit : Option Number)
    (identifier : String) : Prop where
  settle_eq : second.settle limit identifier = first.settle limit identifier
  isLate_eq : second.isLate limit identifier = first.isLate limit identifier

/-- Resolvers with the same answer give the same answer, when both of them wait or neither does. -/
theorem Resolver.AnswersAlike.of_answer
    {first second : Resolver}
    {identifier : String}
    (hw : second.waits = first.waits)
    (ha : second.answer identifier = first.answer identifier)
    {limit : Option Number} :
    first.AnswersAlike second limit identifier :=
  ⟨by unfold settle isTooSlow; rw [hw, ha], by unfold isLate; rw [ha]⟩

/-- The waves of a load are answered alike, with the same manifests or failures. -/
def AnswerWavesAlike (answer answer' : String → Except Failure Manifest) (c : Catalog)
    (identifiers : List String) : Prop :=
  ∀ (k : Nat) (wave : List String) (taken : List Manifest) (requested : List String),
    WaveAt answer c identifiers k wave taken requested →
      ∀ identifier ∈ wave, answer' identifier = answer identifier

section Alike

variable {answer answer' : String → Except Failure Manifest} {c : Catalog}
  {identifiers wave requested : List String} {taken manifests : List Manifest} {k : Nat}
  {b next : Batch}

theorem Batch.answered_congr
    (h : ∀ identifier ∈ wave, answer' identifier = answer identifier) :
    Answered answer' wave manifests ↔ Answered answer wave manifests := by
  rw [answered_iff_mapM, answered_iff_mapM, mapM_congr h]

/-- Waves that are answered alike are the same. -/
theorem AnswerWavesAlike.wave_iff
    (h : AnswerWavesAlike answer answer' c identifiers) :
    WaveAt answer' c identifiers k wave taken requested ↔
      WaveAt answer c identifiers k wave taken requested := by
  constructor
  · intro hw
    induction hw with
    | roots => exact .roots
    | next _ hanswers hnames ih =>
        exact .next ih ((Batch.answered_congr (h _ _ _ _ ih)).1 hanswers) hnames
  · intro hw
    induction hw with
    | roots => exact .roots
    | next hbefore hanswers hnames ih =>
        exact .next ih ((Batch.answered_congr (h _ _ _ _ hbefore)).2 hanswers) hnames

theorem AnswerWavesAlike.symm
    (h : AnswerWavesAlike answer answer' c identifiers) :
    AnswerWavesAlike answer' answer c identifiers :=
  fun k wave taken requested hw identifier hi =>
    (h k wave taken requested (h.wave_iff.1 hw) identifier hi).symm

theorem Batch.Moves.congr
    (h : ∀ identifier ∈ b.wave, answer' identifier = answer identifier)
    (hm : b.Moves answer c next) :
    b.Moves answer' c next := by
  obtain ⟨manifests, hans, ha⟩ := hm
  exact ⟨manifests, (answered_congr h).2 hans, ha⟩

theorem Batch.Fails.congr
    {failure : Failure}
    (h : ∀ identifier ∈ b.wave, answer' identifier = answer identifier)
    (hf : b.Fails answer c failure) :
    b.Fails answer' c failure := by
  rcases hf with ⟨identifier, hi, hfailure⟩ | ⟨manifests, hans, ha⟩
  · exact Or.inl ⟨identifier, hi, (h identifier hi).trans hfailure⟩
  · exact Or.inr ⟨manifests, (answered_congr h).2 hans, ha⟩

end Alike

section Outcome

variable {first second : Resolver} {limit : Option Number} {r : TypeRegistry}
  {identifiers : List String} {b : Batch}

/-- A batch on its way waits for one of the waves. -/
theorem OnWay.exists_atWave
    {c : Catalog}
    (h : OnWay first limit c identifiers b) :
    ∃ k, b.AtWave (first.settle limit) c identifiers k := by
  induction h with
  | refl => exact ⟨0, .roots rfl .roots⟩
  | tail _ hm ih =>
      obtain ⟨k, hat⟩ := ih
      exact ⟨k + 1, hat.moves hm⟩

variable (h : AnswerWavesAlike (first.settle limit) (second.settle limit) r.catalog identifiers)
include h

theorem OnWay.answers_eq
    (hb : OnWay first limit r.catalog identifiers b) :
    ∀ identifier ∈ b.wave, second.settle limit identifier = first.settle limit identifier := by
  obtain ⟨k, hat⟩ := hb.exists_atWave
  obtain ⟨taken, requested, hwave⟩ := hat.exists_wave
  exact h k _ taken requested hwave

theorem OnWay.congr
    (hb : OnWay first limit r.catalog identifiers b) :
    OnWay second limit r.catalog identifiers b := by
  induction hb with
  | refl => exact Relation.ReflTransGen.refl
  | tail hway hm ih => exact ih.tail (hm.congr (OnWay.answers_eq h hway))

/-- An outcome of a load alone is one with another resolver that answers its waves alike. -/
theorem Alone.congr
    {outcome : TypeRegistry × Except Failure (List Manifest)}
    (ha : Alone first limit r identifiers outcome) :
    Alone second limit r identifiers outcome := by
  obtain ⟨b, hb, hs⟩ := ha
  refine ⟨b, hb.congr h, hs.imp_left ?_⟩
  rintro ⟨failure, hf, he⟩
  exact ⟨failure, hf.congr (hb.answers_eq h), he⟩

end Outcome

namespace Loader

section Ended

variable {resolver second : Resolver} {limit : Option Number} {r : TypeRegistry}
  {identifiers : List String} {events events' : List Event} {s s' : Loader}
  {result result' : Except Failure (List Manifest)} (hc : r.catalog.Coherent)
include hc

/-- A load alone that has ended has asked for all its waves. -/
theorem mem_requests_of_wave
    (hf : (start r .empty [identifiers]).follow? (resolver.settle limit) events = some s)
    (hended : s.states = [.ended result])
    {k : Nat}
    {wave requested : List String}
    {taken : List Manifest}
    (hwave : WaveAt (resolver.settle limit) r.catalog identifiers k wave taken requested)
    {identifier : String}
    (hi : identifier ∈ wave) :
    identifier ∈ s.requests := by
  obtain ⟨waves, hw, hr, hsearches⟩ := exists_searches hc hf
  have hwaves := hsearches.waves_iff hw hended
  have hasked : ∀ (j : Nat) (names : List String), waves[j]? = some names →
      identifier ∈ newIn identifiers j names → identifier ∈ s.requests := by
    intro j names hj hnew
    rw [hr, askedWith]
    exact List.mem_flatMap.2 ⟨(names, j), List.mem_zipIdx_iff_getElem?.2 hj, hnew⟩
  have hk := (hwaves k wave).2 ⟨Or.inr (List.ne_nil_of_mem hi), taken, requested, hwave⟩
  by_cases hroot : identifier ∈ identifiers
  · -- a root that is not committed is in the first wave
    have hnew := hwave.wave_spec.2.1 identifier hi
    refine hasked 0 _ ((hwaves 0 _).2 ⟨Or.inl rfl, [], [], .roots⟩) ?_
    rw [newIn, if_pos rfl]
    exact List.mem_eraseDups.2 (List.mem_filter.2 ⟨hroot, by simp [hnew]⟩)
  · refine hasked k wave hk ?_
    unfold newIn
    split
    · exact hi
    · exact List.mem_filter.2 ⟨hi, by simpa using hroot⟩

/-- A load alone that has ended has an outcome of a load alone. -/
theorem alone_of_ended
    (hf : (start r .empty [identifiers]).follow? (resolver.settle limit) events = some s)
    (hended : s.states = [.ended result]) :
    Alone resolver limit r identifiers (s.registry, result) := by
  obtain ⟨-, hJ⟩ := (Orderly.start hc (Flight.sound_empty _) [identifiers]).follow
    (kept_single resolver limit r identifiers) (Or.inl ⟨_, rfl, rfl, Relation.ReflTransGen.refl⟩) hf
  rcases hJ with ⟨b, he, -⟩ | ⟨result', he, halone⟩
  · rw [hended] at he
    cases he
  · rw [hended] at he
    cases he
    exact halone

/-- A load alone asks two resolvers for the same, and their outcomes agree, if they give the same answers
to what one of them was asked for. -/
theorem agree_of_answers
    (hf : (start r .empty [identifiers]).follow? (resolver.settle limit) events = some s)
    (hended : s.states = [.ended result])
    (ha : ∀ identifier ∈ s.requests,
      second.settle limit identifier = resolver.settle limit identifier)
    (hf' : (start r .empty [identifiers]).follow? (second.settle limit) events' = some s')
    (hended' : s'.states = [.ended result']) :
    s'.requests = s.requests ∧ s'.registry = s.registry ∧
      Agree resolver limit r.catalog identifiers result result' := by
  have halike : AnswerWavesAlike (resolver.settle limit) (second.settle limit) r.catalog
      identifiers := fun k wave taken requested hwave identifier hi =>
    ha identifier (mem_requests_of_wave hc hf hended hwave hi)
  have hsame : s'.requests = s.requests := by
    obtain ⟨waves, hw, hr, hsearches⟩ := exists_searches hc hf
    obtain ⟨waves', hw', hr', hsearches'⟩ := exists_searches hc hf'
    have hwaves := hsearches.waves_iff hw hended
    have hwaves' := hsearches'.waves_iff hw' hended'
    have hequal : waves' = waves := by
      refine List.ext_getElem? fun k => Option.ext fun names => ?_
      rw [hwaves, hwaves']
      simp only [halike.wave_iff]
    rw [hr, hr', hequal]
  have halone := alone_of_ended hc hf hended
  have halone' := (alone_of_ended hc hf' hended').congr halike.symm
  obtain ⟨hregistry, hagree⟩ := halone.agree halone'
  exact ⟨hsame, hregistry.symm, hagree⟩

/-- Where every load succeeds, all that is asked for is answered with a manifest. -/
theorem answered_of_loaded
    {groups : List (List String)}
    (hf : (start r .empty groups).follow? (resolver.settle limit) events = some s)
    (hall : s.AllLoaded)
    {identifier : String}
    (hi : identifier ∈ s.requests) :
    ∃ m, resolver.settle limit identifier = .ok m := by
  have horderly := ((Orderly.start hc (Flight.sound_empty _) groups).follow
    (Run.Kept.nothing resolver limit) trivial hf).1
  have haccounted := (accounted_follow hc hf).resolve_left fun ⟨failure, hfailed⟩ => by
    obtain ⟨found, hfound⟩ := hall _ hfailed
    cases hfound
  obtain ⟨number, hnumber⟩ := Flight.mem_requests_iff.1 hi
  rcases haccounted.answered number (Flight.identifierOf_lt hnumber) with
    ⟨i, b, numbers, hl, -⟩ | ⟨m, hm⟩
  · obtain ⟨found, hfound⟩ := hall _ (mem_states hl)
    cases hfound
  · exact ⟨m, (horderly.sound.truthful number identifier _ hnumber hm).symm⟩

end Ended

section Alike

variable {answer answer' : String → Except Failure Manifest} {s s' : Loader} {event : Event}

/-- What has been asked for stays asked for. -/
theorem requests_subset_follow
    {events : List Event}
    (hf : s.follow? answer events = some s') :
    s.requests ⊆ s'.requests := by
  intro identifier hi
  obtain ⟨number, hnumber⟩ := Flight.mem_requests_iff.1 hi
  exact Flight.mem_requests_iff.2 ⟨number, (within_follow hf).identifier number identifier hnumber⟩

/-- An event looks only at the answers to what has been asked for. -/
theorem next?_congr
    (h : ∀ identifier ∈ s.requests, answer' identifier = answer identifier)
    (event : Event) :
    s.next? answer' event = s.next? answer event := by
  cases event with
  | answers number =>
      have hsame : s.flight.answer? answer' number = s.flight.answer? answer number := by
        unfold Flight.answer?
        split
        · rename_i identifier hi
          rw [h identifier (Flight.mem_requests_iff.2 ⟨number, by simp [Flight.identifierOf, hi]⟩)]
        · rfl
      simp only [next?, hsame]
  | _ => rfl

end Alike

end Loader

namespace Loop

open Loader (Event)

section Congr

variable {first second : Resolver} {limit : Option Number}

/-- What comes of an event depends only on what has been asked for. -/
theorem following_congr
    {s : Loader}
    (h : ∀ identifier ∈ s.requests, first.AnswersAlike second limit identifier)
    (line : List Nat)
    (event : Event) :
    following second limit line s event = following first limit line s event := by
  cases event with
  | requests i =>
      have hexpects : expects second limit s i = expects first limit s i := by
        funext number
        unfold expects
        split
        · rename_i identifier hi
          have hasked : identifier ∈ s.requests :=
            Flight.mem_requests_iff.2 ⟨number, by simp [Flight.identifierOf, hi]⟩
          rw [(h identifier hasked).isLate_eq]
        · rfl
        · rfl
      simp only [following, hexpects]
  | _ => rfl

theorem pass_congr
    {loop : Loop}
    {job : Nat × Event}
    (h : ∀ identifier ∈ (loop.pass first limit job).loader.requests,
      first.AnswersAlike second limit identifier) :
    loop.pass second limit job = loop.pass first limit job := by
  obtain ⟨ticks, event⟩ := job
  cases ticks with
  | succ ticks => rfl
  | zero =>
      obtain ⟨events, hf⟩ := follow_pass first limit loop (0, event)
      have hnext := Loader.next?_congr (fun identifier hi =>
        (h identifier (Loader.requests_subset_follow hf hi)).settle_eq) event
      simp only [pass, work] at h ⊢
      rw [hnext]
      cases hs : loop.loader.next? (first.settle limit) event with
      | none => rfl
      | some s =>
          simp only [hs] at h ⊢
          rw [following_congr h]

theorem foldl_congr
    {jobs : List (Nat × Event)}
    {loop : Loop}
    (h : ∀ identifier ∈ (jobs.foldl (pass first limit) loop).loader.requests,
      first.AnswersAlike second limit identifier) :
    jobs.foldl (pass second limit) loop = jobs.foldl (pass first limit) loop := by
  induction jobs generalizing loop with
  | nil => rfl
  | cons job rest ih =>
      obtain ⟨events, hf⟩ := follow_foldl first limit rest (loop.pass first limit job)
      rw [List.foldl_cons, List.foldl_cons,
        pass_congr fun identifier hi => h identifier (Loader.requests_subset_follow hf hi)]
      exact ih h

theorem tick_congr
    {loop : Loop}
    (h : ∀ identifier ∈ (loop.tick first limit).loader.requests,
      first.AnswersAlike second limit identifier) :
    loop.tick second limit = loop.tick first limit := by
  unfold tick at h ⊢
  split
  · rfl
  · rename_i hne
    split at h
    · rename_i hnil
      exact absurd hnil hne
    · exact foldl_congr h

theorem run_congr
    {ticks : Nat}
    {loop : Loop}
    (h : ∀ identifier ∈ (run first limit ticks loop).loader.requests,
      first.AnswersAlike second limit identifier) :
    run second limit ticks loop = run first limit ticks loop := by
  induction ticks generalizing loop with
  | zero => rfl
  | succ ticks ih =>
      unfold run at h ⊢
      split
      · rfl
      · rename_i hdone
        rw [if_neg hdone] at h
        obtain ⟨events, hf⟩ := follow_run first limit ticks (loop.tick first limit)
        rw [tick_congr fun identifier hi => h identifier (Loader.requests_subset_follow hf hi)]
        exact ih h

/-- Resolvers that give the same answers to what one of them is asked for, late alike, lead to the same
loader. -/
theorem complete_congr
    {r : TypeRegistry}
    {groups : List (List String)}
    (hc : r.catalog.Coherent)
    (h : ∀ identifier ∈ (complete first limit r groups).requests,
      first.AnswersAlike second limit identifier) :
    complete second limit r groups = complete first limit r groups := by
  have hdone : (complete first limit r groups).isDone = true := isDone_complete hc
  have hdone' : (complete second limit r groups).isDone = true := isDone_complete hc
  have hfirst := run_of_isDone hdone (Nat.le_max_left _ (enough second groups))
  have hsecond := run_of_isDone hdone' (Nat.le_max_right (enough first groups) _)
  unfold complete at h ⊢
  rw [← hfirst] at h ⊢
  rw [← hsecond, run_congr h]

end Congr

end Loop
end TypeGraph
