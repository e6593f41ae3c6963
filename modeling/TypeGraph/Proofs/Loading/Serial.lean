import TypeGraph.Proofs.Loading.Overlap

/-!
# Loads in turn

The batches of a run as loads that are made one after the other, each alone, in the order in which the
batches end.  A batch on its way has a shadow in every catalog that the run can still reach; when it
ends its shadow in the catalog of that time ends in the same way, and this is a load alone.

**Results.**
* `Grown.settle`: the end of a batch adds answers only.
* `Run.kept_serial`: a turn, of whatever batch, keeps the loads that have ended loads in turn.
* `Loader.serial_of_follow`: whatever happens to a loader, the loads that have ended are loads in turn.
* `Loop.ended_complete`: the loop ends each load once.
-/

namespace TypeGraph

/-- Requests that are loaded one after the other, each alone, with their results. -/
inductive InTurn (resolver : Resolver) (limit : Option Number) :
    TypeRegistry → List (List String × Except Failure (List Manifest)) → TypeRegistry → Prop
  | done (r : TypeRegistry) : InTurn resolver limit r [] r
  | next {r middle after : TypeRegistry} {identifiers : List String}
      {result : Except Failure (List Manifest)}
      {rest : List (List String × Except Failure (List Manifest))} :
      Alone resolver limit r identifiers (middle, result) → InTurn resolver limit middle rest after →
        InTurn resolver limit r ((identifiers, result) :: rest) after

theorem InTurn.concat
    {resolver : Resolver}
    {limit : Option Number}
    {r middle after : TypeRegistry}
    {log : List (List String × Except Failure (List Manifest))}
    {identifiers : List String}
    {result : Except Failure (List Manifest)}
    (h : InTurn resolver limit r log middle)
    (ha : Alone resolver limit middle identifiers (after, result)) :
    InTurn resolver limit r (log ++ [(identifiers, result)]) after := by
  induction h with
  | done r => exact .next ha (.done after)
  | next hfirst _ ih => exact .next hfirst (ih ha)

/-- The end of a batch adds nothing but answers, each with its dependencies. -/
theorem Grown.settle
    {resolver : Resolver}
    {limit : Option Number}
    {before : Catalog}
    {r : TypeRegistry}
    {d : Discovery}
    {wave : List String}
    (hg : Grown (resolver.settle limit) before r.catalog)
    (hf : Faithful (resolver.settle limit))
    (hc : r.catalog.Coherent)
    (hl : d.Lawful (resolver.settle limit) r.catalog wave) :
    Grown (resolver.settle limit) before (Run.settle r d).1.catalog := by
  rcases Run.settle_cases hl hc.toIndexed with
    ⟨failure, -, hs⟩ | ⟨batch, after, found, hlink, hpub, -, hs⟩
  · rw [hs]
    exact hg
  · rw [hs]
    have hafter := hpub.coherent hl hc hlink
    obtain ⟨hperm, -⟩ := Discovery.link_ok hc.toIndexed hl.found_nodup (fun _ => hl.owns) hlink
    refine ⟨fun name hname => hpub.within name (hg.keeps name hname), ?_, ?_⟩
    · intro m hm
      rw [hpub.assemblies_eq] at hm
      rcases List.mem_append.1 hm with hold | hnew
      · exact hg.answers m hold
      · obtain ⟨identifier, hans⟩ := hl.answered m
          (Discovery.mem_fresh_iff.1 (hperm.mem_iff.1 hnew)).1
        rw [← hf identifier m hans] at hans
        exact Or.inr hans
    · intro m hm name hname
      exact Catalog.known_has_iff.1 (hafter.depends_known ⟨m, hm, rfl, hname⟩)

/-- A batch on its way, as a load that could be made alone in any catalog that only has more
answers. -/
structure Batch.Deferred (resolver : Resolver) (limit : Option Number) (before c : Catalog)
    (b : Batch) : Prop where
  wave_new : ∀ name ∈ b.wave, before.hasAssembly name = false
  shadowed : ∀ later, Grown (resolver.settle limit) before later → c.Within later →
    ∃ b', OnWay resolver limit later b.identifiers b' ∧ b.Shadows later b'

namespace Batch

section Deferred

variable {resolver : Resolver} {limit : Option Number} {before c : Catalog} {b next : Batch}

theorem Deferred.start
    (identifiers : List String) :
    (Batch.start c identifiers).Deferred resolver limit c c where
  wave_new _ hname := (mem_firstWave_iff.1 hname).2
  shadowed _ _ hw := ⟨_, Relation.ReflTransGen.refl, Shadows.start hw identifiers⟩

theorem Deferred.mono
    {c' : Catalog}
    (h : b.Deferred resolver limit before c)
    (hw : c.Within c') :
    b.Deferred resolver limit before c' where
  wave_new := h.wave_new
  shadowed later hg hw' := h.shadowed later hg fun name hname => hw' name (hw name hname)

theorem Deferred.moves
    (h : b.Deferred resolver limit before c)
    (hf : Faithful (resolver.settle limit))
    (hb : b.Lawful (resolver.settle limit) c)
    (hg : Grown (resolver.settle limit) before c)
    (hm : b.Moves (resolver.settle limit) c next) :
    next.Deferred resolver limit before c where
  wave_new := by
    intro name hname
    have hnew := hm.wave_new hname
    cases hold : before.hasAssembly name with
    | false => rfl
    | true =>
        rw [hg.keeps name hold] at hnew
        cases hnew
  shadowed := by
    intro later hgl hw
    obtain ⟨b', hway, hs⟩ := h.shadowed later hgl hw
    obtain ⟨next', hm', hs'⟩ := hs.moves hf hgl h.wave_new hw hb.wave_nodup hm
    rw [hm.keeps.1]
    exact ⟨next', hway.tail hm', hs'⟩

/-- A deferred batch that ends might have been loaded alone, in the registry of that time. -/
theorem Deferred.alone
    {r after : TypeRegistry}
    {result : Except Failure (List Manifest)}
    (h : b.Deferred resolver limit before r.catalog)
    (hf : Faithful (resolver.settle limit))
    (hb : b.Lawful (resolver.settle limit) r.catalog)
    (hg : Grown (resolver.settle limit) before r.catalog)
    (ht : Run.Turn (resolver.settle limit) r b after (.ended result)) :
    Alone resolver limit r b.identifiers (after, result) := by
  have hself : r.catalog.Within r.catalog := fun _ hn => hn
  rcases ht.ended with ⟨failure, hfails, he⟩ | ⟨next, d, hm, hw, hd, he⟩
  · obtain ⟨b', hway, hs⟩ := h.shadowed r.catalog hg hself
    exact ⟨b', hway, Or.inl ⟨failure, hs.fails hf hg h.wave_new hfails, he⟩⟩
  · obtain ⟨next', hway, hs⟩ := (h.moves hf hb hg hm).shadowed r.catalog hg hself
    rw [hm.keeps.1] at hway
    obtain ⟨hw', d', hd', hsettle⟩ := hs.settle hw hd
    exact ⟨next', hway, Or.inr ⟨d', hw', hd', he.trans hsettle.symm⟩⟩

end Deferred
end Batch

namespace Run

/-- The loads that have ended: each request with its result, in the order of their ends. -/
def log (groups : List (List String)) (ended : List Nat) (batches : List BatchState) :
    List (List String × Except Failure (List Manifest)) :=
  ended.map fun i =>
    (groups.getD i [], (batches.map result).getD i (.error .endlessDependencies))

/-- Each batch that has ended is noted once. -/
structure Noted (ended : List Nat) (batches : List BatchState) : Prop where
  nodup : ended.Nodup
  mem_iff : ∀ i, i ∈ ended ↔ ∃ result, batches[i]? = some (.ended result)

/-- What holds between two turns of some groups that started with some registry. -/
structure Serial (resolver : Resolver) (limit : Option Number) (origin : TypeRegistry)
    (groups : List (List String)) (r : TypeRegistry) (ended : List Nat) (batches : List BatchState) :
    Prop where
  grown : Grown (resolver.settle limit) origin.catalog r.catalog
  length_eq : batches.length = groups.length
  noted : Noted ended batches
  inTurn : InTurn resolver limit origin (log groups ended batches) r
  requested : ∀ (i : Nat) (b : Batch), batches[i]? = some (.active b) →
    groups[i]? = some b.identifiers
  deferred : ∀ b, .active b ∈ batches → b.Deferred resolver limit origin.catalog r.catalog

/-- A position other than that of the batch at work has the state it had. -/
theorem getElem?_turned
    {first last : List BatchState}
    (state state' : BatchState)
    {i : Nat}
    (h : i ≠ first.length) :
    (first ++ state' :: last)[i]? = (first ++ state :: last)[i]? := by
  have hset : (first ++ state :: last).set first.length state' = first ++ state' :: last := by
    simp
  rw [← hset, List.getElem?_set_ne h.symm]

section Noted

variable {ended : List Nat} {first last : List BatchState} {b : Batch}

/-- The batch at work has not ended before. -/
theorem Noted.ne_position
    (h : Noted ended (first ++ .active b :: last))
    {i : Nat}
    (hi : i ∈ ended) :
    i ≠ first.length := by
  rintro rfl
  obtain ⟨result, he⟩ := (h.mem_iff _).1 hi
  simp at he

theorem Noted.start
    (c : Catalog)
    (groups : List (List String)) :
    Noted [] (groups.map fun identifiers => .active (.start c identifiers)) where
  nodup := List.nodup_nil
  mem_iff := by simp

theorem Noted.goesOn
    (h : Noted ended (first ++ .active b :: last))
    (next : Batch) :
    Noted ended (first ++ .active next :: last) where
  nodup := h.nodup
  mem_iff := by
    intro i
    by_cases hi : i = first.length
    · subst hi
      have hno : first.length ∉ ended := fun hmem => h.ne_position hmem rfl
      simp [hno]
    · rw [h.mem_iff, getElem?_turned (.active b) (.active next) hi]

theorem Noted.ends
    (h : Noted ended (first ++ .active b :: last))
    (result : Except Failure (List Manifest)) :
    Noted (ended ++ [first.length]) (first ++ .ended result :: last) where
  nodup := by
    refine List.nodup_append.2 ⟨h.nodup, List.nodup_singleton _, ?_⟩
    intro i hi j hj
    rw [List.mem_singleton.1 hj]
    exact h.ne_position hi
  mem_iff := by
    intro i
    rw [List.mem_append, List.mem_singleton]
    by_cases hi : i = first.length
    · simp [hi]
    · rw [h.mem_iff, getElem?_turned (.active b) (.ended result) hi]
      simp [hi]

/-- Turns keep this. -/
theorem kept_noted
    (resolver : Resolver)
    (limit : Option Number) :
    Kept resolver limit fun _ ended batches => Noted ended batches where
  goesOn _ _ _ _ _ next _ _ h _ := h.goesOn next
  ends _ _ _ _ _ _ result _ _ h _ := h.ends result

end Noted

section Serial

variable {resolver : Resolver} {limit : Option Number} {origin r : TypeRegistry}
  {groups : List (List String)} {ended : List Nat} {first last : List BatchState} {b : Batch}

theorem log_turned
    {state state' : BatchState}
    (h : ∀ i ∈ ended, i ≠ first.length) :
    log groups ended (first ++ state' :: last) = log groups ended (first ++ state :: last) := by
  refine List.map_congr_left fun i hi => ?_
  simp only [List.getD_eq_getElem?_getD, List.getElem?_map]
  rw [getElem?_turned state state' (h i hi)]

theorem Serial.start
    (resolver : Resolver)
    (limit : Option Number)
    (hc : origin.catalog.Coherent)
    (groups : List (List String)) :
    Serial resolver limit origin groups origin []
      (groups.map fun identifiers => .active (.start origin.catalog identifiers)) where
  grown := by
    refine ⟨fun _ hn => hn, fun m hm => Or.inl (Catalog.hasAssembly_iff.2 ⟨m, hm, rfl⟩), ?_⟩
    intro m hm name hname
    exact Catalog.known_has_iff.1 (hc.depends_known ⟨m, hm, rfl, hname⟩)
  length_eq := List.length_map _
  noted := .start origin.catalog groups
  inTurn := .done origin
  requested := by
    intro i b he
    rw [List.getElem?_map] at he
    obtain ⟨identifiers, hi, hb⟩ := Option.map_eq_some_iff.1 he
    cases hb
    exact hi
  deferred := by
    intro b hb
    obtain ⟨identifiers, -, he⟩ := List.mem_map.1 hb
    cases he
    exact Batch.Deferred.start identifiers

section AtWork

variable (h : Serial resolver limit origin groups r ended (first ++ .active b :: last))
include h

variable (hf : Faithful (resolver.settle limit))
  (hb : b.Lawful (resolver.settle limit) r.catalog)
include hf hb

/-- A batch that goes on leaves the loads that have ended in turn. -/
theorem Serial.goesOn
    {next : Batch}
    (hm : b.Moves (resolver.settle limit) r.catalog next) :
    Serial resolver limit origin groups r ended (first ++ .active next :: last) where
  grown := h.grown
  length_eq := by simpa using h.length_eq
  noted := h.noted.goesOn next
  inTurn := by
    rw [log_turned fun i hi => h.noted.ne_position hi]
    exact h.inTurn
  requested := by
    intro i b' he
    by_cases hi : i = first.length
    · subst hi
      obtain rfl : next = b' := by simpa using he
      rw [hm.keeps.1]
      exact h.requested _ b (by simp)
    · rw [getElem?_turned (.active b) (.active next) hi] at he
      exact h.requested i b' he
  deferred := by
    intro b' hb'
    rcases active_of_turned (.active b) hb' with he | hold
    · cases he
      exact (h.deferred b (by simp)).moves hf hb h.grown hm
    · exact h.deferred b' hold

/-- A batch that ends adds its load to those that have ended. -/
theorem Serial.ends
    {after : TypeRegistry}
    {result : Except Failure (List Manifest)}
    (ht : Turn (resolver.settle limit) r b after (.ended result))
    (hg : Grown (resolver.settle limit) origin.catalog after.catalog)
    (hw : r.catalog.Within after.catalog) :
    Serial resolver limit origin groups after (ended ++ [first.length])
      (first ++ .ended result :: last) where
  grown := hg
  length_eq := by simpa using h.length_eq
  noted := h.noted.ends result
  inTurn := by
    have halone := (h.deferred b (by simp)).alone hf hb h.grown ht
    have hgroup := h.requested first.length b (by simp)
    have hold : log groups ended (first ++ .ended result :: last) =
        log groups ended (first ++ .active b :: last) :=
      log_turned fun i hi => h.noted.ne_position hi
    have hlog : log groups (ended ++ [first.length]) (first ++ .ended result :: last) =
        log groups ended (first ++ .active b :: last) ++ [(b.identifiers, result)] := by
      rw [← hold]
      simp [log, List.getD_eq_getElem?_getD, hgroup, Run.result]
    rw [hlog]
    exact h.inTurn.concat halone
  requested := by
    intro i b' he
    by_cases hi : i = first.length
    · subst hi
      simp at he
    · rw [getElem?_turned (.active b) (.ended result) hi] at he
      exact h.requested i b' he
  deferred := by
    intro b' hb'
    rcases active_of_turned (.active b) hb' with he | hold
    · cases he
    · exact (h.deferred b' hold).mono hw

end AtWork

/-- A turn, of whatever batch, keeps the loads that have ended loads in turn. -/
theorem kept_serial
    (hf : Faithful (resolver.settle limit))
    (origin : TypeRegistry)
    (groups : List (List String)) :
    Kept resolver limit (Serial resolver limit origin groups) where
  goesOn r ended first b last next hc hb h ht := by
    obtain ⟨-, hm, -⟩ := ht.active
    exact h.goesOn hf hb hm
  ends r ended first b last after result hc hb h ht := by
    rcases ht.ended with ⟨failure, -, he⟩ | ⟨next, d, hm, -, hd, he⟩
    · cases he
      exact h.ends hf hb ht h.grown fun _ hn => hn
    · have hl := (hm.lawful hb).learned d hd
      obtain ⟨-, hw⟩ := settle_coherent hl hc
      have hg := h.grown.settle hf hc hl
      rw [← he] at hg hw
      exact h.ends hf hb ht hg hw

end Serial
end Run

section Follow

variable {resolver : Resolver} {limit : Option Number} {r : TypeRegistry}
  {groups : List (List String)}

/-- Whatever happens to a loader, and whatever is in flight when the loads begin, the loads that have ended
might have been made one after the other, each alone. -/
theorem Loader.serial_of_follow
    {f : Flight}
    {events : List Loader.Event}
    {s : Loader}
    (hf : Faithful (resolver.settle limit))
    (hc : r.catalog.Coherent)
    (hs : f.Sound (resolver.settle limit))
    (hrun : (Loader.start r f groups).follow? (resolver.settle limit) events = some s) :
    Run.Serial resolver limit r groups s.registry s.ended s.states := by
  refine (Orderly.follow (Run.kept_serial hf r groups) (.start hc hs groups) ?_ hrun).2
  rw [Loop.states_start]
  exact .start resolver limit hc groups

/-- The loop ends each load once. -/
theorem Loop.ended_complete
    (resolver : Resolver)
    (limit : Option Number)
    (hc : r.catalog.Coherent)
    (groups : List (List String)) :
    (Loop.complete resolver limit r groups).ended.Perm (List.range groups.length) := by
  obtain ⟨-, hall, h⟩ := Loop.complete_induction hc (Run.kept_noted resolver limit) groups
    (.start r.catalog groups)
  have hlength := Loop.length_states hc resolver limit groups
  refine (List.perm_ext_iff_of_nodup h.nodup List.nodup_range).2 fun i => ?_
  rw [h.mem_iff, List.mem_range, ← hlength]
  constructor
  · rintro ⟨result, he⟩
    exact (List.getElem?_eq_some_iff.1 he).1
  · intro hi
    obtain ⟨result, he⟩ := hall _ (List.getElem_mem hi)
    exact ⟨result, by rw [List.getElem?_eq_getElem hi, he]⟩

end Follow
end TypeGraph
