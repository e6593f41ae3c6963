import TypeGraph.Proofs.Loading.Accounted
import TypeGraph.Proofs.Loading.Succession

/-!
# What a load alone asks for

A load that runs alone asks for one wave after the other.  Of a wave of dependencies it leaves out what it
has requested as a root: that was answered with a manifest of another name, which is shared still.  In
whatever order the events come, when the load has ended it has asked for all the waves there are.

**Results.**
* `Loader.shared_of_root`, `Loader.asks_of_wave`: what is shared of a wave, and what is asked for.
* `Loader.Searches.next`, `Loader.exists_searches`: each event goes on with the waves.
* `Loader.Searches.waves_iff`: at its end the load has waited for every wave.
-/

namespace TypeGraph

section Waves

variable (answer : String → Except Failure Manifest) (c : Catalog) (identifiers : List String)

/-- The first waves of a load, as far as it waits for them: after the first one none is empty. -/
def Waves (waves : List (List String)) : Prop :=
  ∀ (k : Nat) (names : List String), waves[k]? = some names → (k = 0 ∨ names ≠ []) ∧
    ∃ taken requested, WaveAt answer c identifiers k names taken requested

/-- What is asked for with a wave: all of the first one, and of a later one what is no root. -/
def newIn (k : Nat) (wave : List String) : List String :=
  if k = 0 then wave else wave.filter fun identifier => identifier ∉ identifiers

/-- What is asked for with some waves. -/
def askedWith (waves : List (List String)) : List String :=
  waves.zipIdx.flatMap fun entry => newIn identifiers entry.2 entry.1

end Waves

section Waves

variable {answer : String → Except Failure Manifest} {c : Catalog} {identifiers names : List String}
  {waves : List (List String)} {wave requested : List String} {taken : List Manifest} {k : Nat}

theorem askedWith_append_singleton
    (identifiers : List String)
    (waves : List (List String))
    (wave : List String) :
    askedWith identifiers (waves ++ [wave]) =
      askedWith identifiers waves ++ newIn identifiers waves.length wave := by
  simp [askedWith, List.zipIdx_append]

/-- What is asked for is in one of the waves. -/
theorem exists_wave_of_mem
    {identifier : String}
    (h : identifier ∈ askedWith identifiers waves) :
    ∃ (k : Nat) (names : List String), waves[k]? = some names ∧ identifier ∈ names := by
  obtain ⟨⟨names, k⟩, hentry, hi⟩ := List.mem_flatMap.1 h
  refine ⟨k, names, List.mem_zipIdx_iff_getElem?.1 hentry, ?_⟩
  unfold newIn at hi
  split at hi
  · exact hi
  · exact (List.mem_filter.1 hi).1

theorem Waves.append
    (h : Waves answer c identifiers waves)
    (hwave : WaveAt answer c identifiers waves.length wave taken requested)
    (hne : waves = [] ∨ wave ≠ []) :
    Waves answer c identifiers (waves ++ [wave]) := by
  intro k names hk
  rcases Nat.lt_or_ge k waves.length with hlt | hge
  · rw [List.getElem?_append_left hlt] at hk
    exact h k names hk
  · rw [List.getElem?_append_right hge] at hk
    obtain ⟨hzero, rfl⟩ : k - waves.length = 0 ∧ wave = names := by
      simpa [List.getElem?_singleton] using hk
    obtain rfl : k = waves.length := by omega
    exact ⟨hne.imp_left fun hnil => by simp [hnil], taken, requested, hwave⟩

/-- There are all the waves before a wave. -/
theorem WaveAt.exists_before
    (h : WaveAt answer c identifiers k wave taken requested)
    {j : Nat}
    (hj : j ≤ k) :
    ∃ names known before, WaveAt answer c identifiers j names known before := by
  induction h with
  | roots =>
      obtain rfl : j = 0 := by omega
      exact ⟨_, _, _, .roots⟩
  | @next k _ _ _ _ hbefore hanswers hnames ih =>
      by_cases hlast : j = k + 1
      · subst hlast
        exact ⟨_, _, _, .next hbefore hanswers hnames⟩
      · exact ih (by omega)

/-- After an empty wave of dependencies there are only empty ones. -/
theorem WaveAt.eq_nil_of_le
    {j : Nat}
    {known : List Manifest}
    {before : List String}
    (hj : WaveAt answer c identifiers j [] known before)
    (h : WaveAt answer c identifiers k wave taken requested)
    (hjk : j ≤ k) :
    wave = [] := by
  induction h with
  | roots =>
      obtain rfl : j = 0 := by omega
      exact (WaveAt.roots.unique hj).1
  | @next k _ _ _ manifests hbefore hanswers hnames ih =>
      by_cases hlast : j = k + 1
      · subst hlast
        exact ((WaveAt.next hbefore hanswers hnames).unique hj).1
      · rw [ih (by omega)] at hanswers
        cases hanswers
        rfl

end Waves

namespace Loader

/-- A load alone has asked for some waves: it is about to ask for the next one, waits for the last one of
them, or has ended, and then no other wave is left. -/
inductive Searches (answer : String → Except Failure Manifest) (r : TypeRegistry)
    (identifiers : List String) (waves : List (List String)) (s : Loader) : Prop
  | asks {b : Batch} :
      s.registry = r →
      s.ended = [] →
      s.loads = [⟨.active b, none⟩] →
      b.AtWave answer r.catalog identifiers waves.length →
      (waves = [] ∨ b.wave ≠ []) →
      Searches answer r identifiers waves s
  | waits {before : List (List String)} {b : Batch} {numbers : List Nat} :
      s.registry = r →
      s.ended = [] →
      s.loads = [⟨.active b, some numbers⟩] →
      b.AtWave answer r.catalog identifiers before.length →
      waves = before ++ [b.wave] →
      Searches answer r identifiers waves s
  | ended {result : Except Failure (List Manifest)} :
      s.states = [.ended result] →
      waves ≠ [] →
      (∀ names taken requested,
        WaveAt answer r.catalog identifiers waves.length names taken requested → names = []) →
      Searches answer r identifiers waves s

section Searches

variable {resolver : Resolver} {limit : Option Number} {r : TypeRegistry}
  {identifiers : List String} {waves : List (List String)} {s s' : Loader} {b : Batch}

/-- Of the wave that a load alone is about to ask for it shares what it has requested as a root: there is
a manifest, under another name. -/
theorem shared_of_root
    (ho : s.Orderly resolver limit)
    (haccounted : s.Accounted (resolver.settle limit))
    (hw : Waves (resolver.settle limit) r.catalog identifiers waves)
    (hr : s.requests = askedWith identifiers waves)
    (hended : s.ended = [])
    (hl : s.loads = [⟨.active b, none⟩])
    (hat : b.AtWave (resolver.settle limit) r.catalog identifiers waves.length)
    (hne : waves ≠ [])
    {identifier : String}
    (hi : identifier ∈ b.wave)
    (hroot : identifier ∈ identifiers) :
    ∃ number m, s.flight.shared.lookup identifier = some number ∧
      s.flight.manifestOf number = some m ∧ m.name ≠ identifier := by
  obtain ⟨taken, requested, hwave⟩ := hat.exists_wave
  have hpos : waves.length ≠ 0 := by simpa using hne
  obtain ⟨m, hm, hname⟩ := hwave.exists_other_name hpos hi hroot
  have hnew := hwave.wave_spec.2.1 identifier hi
  have hasked : identifier ∈ s.requests := by
    obtain ⟨first, later, rfl⟩ := List.exists_cons_of_ne_nil hne
    obtain ⟨-, _, _, hfirst⟩ := hw 0 first rfl
    obtain ⟨rfl, -, -⟩ := hfirst.unique .roots
    rw [hr, askedWith]
    refine List.mem_flatMap.2 ⟨(_, 0), List.mem_zipIdx_iff_getElem?.2 rfl, ?_⟩
    rw [newIn, if_pos rfl]
    exact List.mem_eraseDups.2 (List.mem_filter.2 ⟨hroot, by simp [hnew]⟩)
  obtain ⟨number, hshared⟩ := (haccounted.kept identifier hasked).resolve_right <| by
    rintro (⟨failure, hfailed⟩ | ⟨hsome, -⟩)
    · rw [hm] at hfailed
      cases hfailed
    · exact hsome hended
  have hnumber := ho.sound.numbered _ (Flight.mem_shared_of_lookup hshared)
  obtain ⟨n, hn⟩ := (haccounted.answered number (Flight.identifierOf_lt hnumber)).resolve_left <| by
    rintro ⟨i, b', numbers, hi, -⟩
    rw [hl] at hi
    have hmem := List.mem_of_getElem? hi
    simp at hmem
  have hsame := ho.sound.truthful number identifier _ hnumber hn
  rw [hm] at hsame
  cases hsame
  exact ⟨number, m, hshared, Flight.manifestOf_eq_some_iff.2 hn, hname⟩

/-- A load alone asks for its first wave as a whole, and for what is no root of a later one. -/
theorem asks_of_wave
    (ho : s.Orderly resolver limit)
    (haccounted : s.Accounted (resolver.settle limit))
    (hw : Waves (resolver.settle limit) r.catalog identifiers waves)
    (hr : s.requests = askedWith identifiers waves)
    (hended : s.ended = [])
    (hl : s.loads = [⟨.active b, none⟩])
    (hat : b.AtWave (resolver.settle limit) r.catalog identifiers waves.length) :
    s.asks (.requests 0) = newIn identifiers waves.length b.wave := by
  obtain ⟨taken, requested, hwave⟩ := hat.exists_wave
  have hasks : s.asks (.requests 0) =
      b.wave.filter fun identifier => (s.flight.shared.lookup identifier).isNone := by
    simp [asks, hl]
  have hnew : ∀ identifier ∈ b.wave, (s.flight.shared.lookup identifier).isNone =
      decide (waves.length = 0 ∨ identifier ∉ identifiers) := by
    intro identifier hi
    rw [Bool.eq_iff_iff, decide_eq_true_iff, Option.isNone_iff_eq_none]
    constructor
    · intro hnone
      by_contra hroot
      rw [not_or, not_not] at hroot
      obtain ⟨number, m, hshared, -⟩ := shared_of_root ho haccounted hw hr hended hl hat
        (by simpa using hroot.1) hi hroot.2
      rw [hnone] at hshared
      cases hshared
    · intro hfirst
      rw [← Option.not_isSome_iff_eq_none, Option.isSome_iff_exists]
      rintro ⟨number, hshared⟩
      -- what is shared was asked for with an earlier wave, which has none of this one but for roots
      have hasked : identifier ∈ askedWith identifiers waves := by
        rw [← hr]
        exact Flight.mem_requests_iff.2
          ⟨number, ho.sound.numbered _ (Flight.mem_shared_of_lookup hshared)⟩
      obtain ⟨j, names, hj, hmem⟩ := exists_wave_of_mem hasked
      obtain ⟨-, known, before, hearlier⟩ := hw j names hj
      have hlt := (List.getElem?_eq_some_iff.1 hj).1
      by_cases hpos : j = 0
      · subst hpos
        obtain ⟨rfl, -, -⟩ := hearlier.unique .roots
        have hroot := (List.mem_filter.1 (List.mem_eraseDups.1 hmem)).1
        exact hfirst.elim (by omega) fun hnot => hnot hroot
      · exact hearlier.not_mem_later hpos hwave hlt hmem hi
  rw [hasks, List.filter_congr hnew, newIn]
  by_cases hk : waves.length = 0 <;> simp [hk]

/-- A load alone that waits for a wave has its turn: it goes on to the next wave, or ends where there is
none. -/
theorem searches_turned
    {before : List (List String)}
    {awaited : Option (List Nat)}
    {after : TypeRegistry}
    {state : BatchState}
    (hr : s.registry = r)
    (hended : s.ended = [])
    (hl : s.loads = [⟨.active b, awaited⟩])
    (hat : b.AtWave (resolver.settle limit) r.catalog identifiers before.length)
    (ht : Run.Turn (resolver.settle limit) s.registry b after state) :
    Searches (resolver.settle limit) r identifiers (before ++ [b.wave])
      (s.turned 0 b (after, state)) := by
  subst hr
  have hlength : (before ++ [b.wave]).length = before.length + 1 := by simp
  cases state with
  | active next =>
      obtain ⟨rfl, hm, hne⟩ := ht.active
      refine .asks rfl ?_ (by simp [hl]) (hlength ▸ hat.moves hm) (Or.inr hne)
      simpa [turned_ended] using hended
  | ended result =>
      have hstates : (s.turned 0 b (after, .ended result)).states = [.ended result] := by
        simp [states, hl]
      refine .ended hstates (by simp) ?_
      rw [hlength]
      intro names taken requested hnext
      obtain ⟨next, hm, rfl⟩ := hat.exists_moves hnext
      rcases ht.ended with ⟨failure, hf, -⟩ | ⟨next', d, hm', hw, -⟩
      · exact absurd hm hf.not_moves
      · rwa [hm.unique hm']

/-- An event that leaves the loads as they were leaves a load alone where it was. -/
theorem Searches.of_loads
    (h : s.Searches (resolver.settle limit) r identifiers waves)
    (hregistry : s'.registry = s.registry)
    (hended : s'.ended = s.ended)
    (hloads : s'.loads = s.loads) :
    s'.Searches (resolver.settle limit) r identifiers waves := by
  cases h with
  | asks hr he hl hat hne => exact .asks (hregistry.trans hr) (hended.trans he) (hloads.trans hl) hat hne
  | waits hr he hl hat hw => exact .waits (hregistry.trans hr) (hended.trans he) (hloads.trans hl) hat hw
  | ended hstates hne hlast => exact .ended (by rwa [states, hloads]) hne hlast

/-- Only a load alone that is about to ask for a wave asks for it. -/
theorem Searches.request
    (ho : s.Orderly resolver limit)
    (haccounted : s.Failing ∨ s.Accounted (resolver.settle limit))
    (hw : Waves (resolver.settle limit) r.catalog identifiers waves)
    (hr : s.requests = askedWith identifiers waves)
    (h : s.Searches (resolver.settle limit) r identifiers waves)
    {i : Nat}
    (hs : s.request? i = some s') :
    ∃ wave, Waves (resolver.settle limit) r.catalog identifiers (waves ++ [wave]) ∧
      s'.requests = askedWith identifiers (waves ++ [wave]) ∧
        s'.Searches (resolver.settle limit) r identifiers (waves ++ [wave]) := by
  have hnext : s.next? (resolver.settle limit) (.requests i) = some s' := hs
  obtain ⟨hrequests, -⟩ := ho.requests_next hnext
  obtain ⟨b', hi, rfl⟩ := request?_eq_some_iff.1 hs
  cases h with
  | waits _ _ hl _ _ =>
      rw [hl] at hi
      have hmem := List.mem_of_getElem? hi
      simp at hmem
  | ended hstates _ _ =>
      have hmem := mem_states hi
      rw [hstates] at hmem
      simp at hmem
  | @asks b hregistry hended hl hat hne =>
      obtain ⟨taken, requested, hwave⟩ := hat.exists_wave
      obtain ⟨rfl, rfl⟩ : i = 0 ∧ b = b' := by
        rw [hl, List.getElem?_singleton] at hi
        split at hi
        · rename_i hzero
          cases hi
          exact ⟨hzero, rfl⟩
        · cases hi
      have hloads : s.loads.set 0 ⟨.active b, some (s.flight.fetchAll b.wave).2⟩ =
          [⟨.active b, some (s.flight.fetchAll b.wave).2⟩] := by
        simp [hl]
      refine ⟨b.wave, hw.append hwave hne, ?_, .waits hregistry hended hloads hat rfl⟩
      have haccounted := haccounted.resolve_left fun ⟨failure, hfailure⟩ => by
        simp [states, hl] at hfailure
      rw [hrequests, asks_of_wave ho haccounted hw hr hended hl hat, hr, askedWith_append_singleton]

/-- A load alone that has its turn waits for a wave. -/
theorem Searches.turned
    (h : s.Searches (resolver.settle limit) r identifiers waves)
    {i : Nat}
    {numbers : List Nat}
    {after : TypeRegistry}
    {state : BatchState}
    (hi : s.loads[i]? = some ⟨.active b, some numbers⟩)
    (ht : Run.Turn (resolver.settle limit) s.registry b after state) :
    (s.turned i b (after, state)).Searches (resolver.settle limit) r identifiers waves := by
  cases h with
  | asks _ _ hl _ _ =>
      rw [hl] at hi
      have hmem := List.mem_of_getElem? hi
      simp at hmem
  | ended hstates _ _ =>
      have hmem := mem_states hi
      rw [hstates] at hmem
      simp at hmem
  | @waits before b' numbers' hregistry hended hl hat he =>
      rw [hl, List.getElem?_singleton] at hi
      split at hi
      · rename_i hzero
        cases hi
        subst hzero he
        exact searches_turned hregistry hended hl hat ht
      · cases hi

/-- Each event goes on with the waves of a load alone. -/
theorem Searches.next
    (ho : s.Orderly resolver limit)
    (haccounted : s.Failing ∨ s.Accounted (resolver.settle limit))
    (hw : Waves (resolver.settle limit) r.catalog identifiers waves)
    (hr : s.requests = askedWith identifiers waves)
    (h : s.Searches (resolver.settle limit) r identifiers waves)
    {event : Event}
    (hs : s.next? (resolver.settle limit) event = some s') :
    ∃ waves', Waves (resolver.settle limit) r.catalog identifiers waves' ∧
      s'.requests = askedWith identifiers waves' ∧
        s'.Searches (resolver.settle limit) r identifiers waves' := by
  obtain ⟨hrequests, -⟩ := ho.requests_next hs
  cases event with
  | requests i =>
      obtain ⟨wave, hnext⟩ := h.request ho haccounted hw hr hs
      exact ⟨_, hnext⟩
  | answers number =>
      obtain ⟨f, -, rfl⟩ := Option.map_eq_some_iff.1 hs
      exact ⟨waves, hw, (hrequests.trans (List.append_nil _)).trans hr, h.of_loads rfl rfl rfl⟩
  | forgets number =>
      obtain ⟨f, -, rfl⟩ := Option.map_eq_some_iff.1 hs
      exact ⟨waves, hw, (hrequests.trans (List.append_nil _)).trans hr, h.of_loads rfl rfl rfl⟩
  | resumes i =>
      obtain ⟨b', numbers, after, state, hi, ht, rfl⟩ := ho.turn_of_resume hs
      exact ⟨waves, hw, (hrequests.trans (List.append_nil _)).trans hr, h.turned hi ht⟩
  | fails i number =>
      obtain ⟨b', numbers, after, state, hi, ht, rfl⟩ := ho.turn_of_fail hs
      exact ⟨waves, hw, (hrequests.trans (List.append_nil _)).trans hr, h.turned hi ht⟩

/-- A load alone that is about to ask for a wave has asked for those before it. -/
theorem Searches.of_asking
    (h : s.Searches (resolver.settle limit) r identifiers waves)
    (hl : s.loads = [⟨.active b, none⟩]) :
    s.ended = [] ∧ b.AtWave (resolver.settle limit) r.catalog identifiers waves.length := by
  cases h with
  | asks _ hended hl' hat _ =>
      rw [hl] at hl'
      cases hl'
      exact ⟨hended, hat⟩
  | waits _ _ hl' _ _ =>
      rw [hl] at hl'
      cases hl'
  | ended hstates _ _ => simp [states, hl] at hstates

/-- A load that has ended has waited for every wave. -/
theorem Searches.waves_iff
    (hw : Waves (resolver.settle limit) r.catalog identifiers waves)
    (h : s.Searches (resolver.settle limit) r identifiers waves)
    {result : Except Failure (List Manifest)}
    (hended : s.states = [.ended result])
    (k : Nat)
    (names : List String) :
    waves[k]? = some names ↔ (k = 0 ∨ names ≠ []) ∧
      ∃ taken requested, WaveAt (resolver.settle limit) r.catalog identifiers k names taken requested := by
  obtain ⟨hpos, hlast⟩ : waves.length ≠ 0 ∧ ∀ names taken requested, WaveAt (resolver.settle limit)
      r.catalog identifiers waves.length names taken requested → names = [] := by
    cases h with
    | asks _ _ hl _ _ => simp [states, hl] at hended
    | waits _ _ hl _ _ => simp [states, hl] at hended
    | ended _ hne hlast => exact ⟨by simpa using hne, hlast⟩
  refine ⟨hw k names, ?_⟩
  rintro ⟨hne, taken, requested, hwave⟩
  rcases Nat.lt_or_ge k waves.length with hlt | hge
  · obtain ⟨-, _, _, hsame⟩ := hw k _ (List.getElem?_eq_getElem hlt)
    rw [List.getElem?_eq_getElem hlt, (hsame.unique hwave).1]
  · exfalso
    obtain ⟨first, known, before, hfirst⟩ := hwave.exists_before hge
    obtain rfl := hlast first known before hfirst
    have hnil := hfirst.eq_nil_of_le hwave hge
    exact hne.elim (by omega) fun hnot => hnot hnil

/-- Whatever happens to a load alone, it has asked for the first of its waves. -/
theorem exists_searches
    (hc : r.catalog.Coherent)
    {events : List Event}
    (hf : (start r .empty [identifiers]).follow? (resolver.settle limit) events = some s) :
    ∃ waves, Waves (resolver.settle limit) r.catalog identifiers waves ∧
      s.requests = askedWith identifiers waves ∧
        s.Searches (resolver.settle limit) r identifiers waves := by
  induction events using List.reverseRecOn generalizing s with
  | nil =>
      cases hf
      refine ⟨[], by simp [Waves], rfl, .asks rfl rfl rfl (.roots rfl .roots) (Or.inl rfl)⟩
  | append_singleton events event ih =>
      obtain ⟨middle, hmiddle, hnext⟩ := follow?_concat_eq_some_iff.1 hf
      have horderly := ((Orderly.start hc (Flight.sound_empty _) [identifiers]).follow
        (Run.Kept.nothing resolver limit) trivial hmiddle).1
      obtain ⟨waves, hw, hr, hsearches⟩ := ih hmiddle
      exact hsearches.next horderly (accounted_follow hc hmiddle) hw hr hnext

end Searches

end Loader
end TypeGraph
