import TypeGraph.Proofs.Loading.Lawful
import TypeGraph.Proofs.Loading.Linked
import TypeGraph.Proofs.Manifest.Decoded

/-!
# The turn of a batch

Everything that the turn of a batch can do: it fails with the registry as it was, it goes on to its
next wave, or, when no wave is left, it is linked and either fails there or is published.  A publication
is never left half done, because every root of a lawful batch is committed or found.

A wave may fail with the failure of any of its identifiers, since which of them is there first depends on
the resolver and on who has asked for it before.

**Results.**
* `Run.exists_turn`: a turn fails, goes on, or comes to its end.
* `Run.Turn.active`, `Run.Turn.ended`: what has happened when a batch is on its way or has ended.
* `Run.commit_of_link`: a commit of what has been linked does not fail.
* `Run.settle_cases`: at its end a batch fails, or is published as a whole.
* `Run.settle_coherent`: the end of a batch keeps the catalog coherent.
-/

namespace TypeGraph
namespace Batch

/-- Some manifests are the answers to a wave. -/
def Answered (answer : String → Except Failure Manifest) (wave : List String)
    (manifests : List Manifest) : Prop :=
  List.Forall₂ (fun identifier m => answer identifier = .ok m) wave manifests

/-- A batch goes on to another state of it when its wave is answered. -/
def Moves (answer : String → Except Failure Manifest) (c : Catalog) (b next : Batch) : Prop :=
  ∃ manifests, Answered answer b.wave manifests ∧ b.advance c manifests = .ok next

/-- A batch fails: with any failure in its wave, or when it goes on. -/
def Fails (answer : String → Except Failure Manifest) (c : Catalog) (b : Batch)
    (failure : Failure) : Prop :=
  (∃ identifier ∈ b.wave, answer identifier = .error failure) ∨
    ∃ manifests, Answered answer b.wave manifests ∧ b.advance c manifests = .error failure

section Moves

variable {answer : String → Except Failure Manifest} {c : Catalog} {b next : Batch}
  {wave : List String} {manifests : List Manifest}

/-- A wave has the manifests that asking for it one by one would give. -/
theorem answered_iff_mapM :
    Answered answer wave manifests ↔ wave.mapM answer = .ok manifests :=
  mapM_eq_ok_iff.symm

theorem Answered.unique
    {manifests' : List Manifest}
    (h : Answered answer wave manifests)
    (h' : Answered answer wave manifests') :
    manifests = manifests' := by
  rw [answered_iff_mapM] at h h'
  rw [h] at h'
  cases h'
  rfl

theorem Answered.exists_of_mem
    (h : Answered answer wave manifests)
    {identifier : String}
    (hi : identifier ∈ wave) :
    ∃ m ∈ manifests, answer identifier = .ok m :=
  exists_result_of_mem (answered_iff_mapM.1 h) hi

/-- What is answered has no failure in it. -/
theorem Answered.no_failure
    (h : Answered answer wave manifests)
    {identifier : String}
    (hi : identifier ∈ wave)
    (failure : Failure) :
    answer identifier ≠ .error failure := by
  obtain ⟨m, -, hm⟩ := h.exists_of_mem hi
  rw [hm]
  simp

/-- A wave is answered, or there is a failure in it. -/
theorem answered_or_failure
    (answer : String → Except Failure Manifest)
    (wave : List String) :
    (∃ manifests, Answered answer wave manifests) ∨
      ∃ failure, ∃ identifier ∈ wave, answer identifier = .error failure := by
  by_cases h : ∀ identifier ∈ wave, ∃ m, answer identifier = .ok m
  · obtain ⟨manifests, hm⟩ := exists_results h
    exact Or.inl ⟨manifests, answered_iff_mapM.2 hm⟩
  · push Not at h
    obtain ⟨identifier, hi, hno⟩ := h
    cases ha : answer identifier with
    | ok m => exact absurd ha (hno m)
    | error failure => exact Or.inr ⟨failure, identifier, hi, ha⟩

theorem Moves.unique
    {next' : Batch}
    (h : b.Moves answer c next)
    (h' : b.Moves answer c next') :
    next = next' := by
  obtain ⟨manifests, hans, ha⟩ := h
  obtain ⟨manifests', hans', ha'⟩ := h'
  cases hans.unique hans'
  rw [ha] at ha'
  cases ha'
  rfl

theorem Fails.not_moves
    {failure : Failure}
    (h : b.Fails answer c failure) :
    ¬ b.Moves answer c next := by
  rintro ⟨manifests, hans, ha⟩
  rcases h with ⟨identifier, hi, hf⟩ | ⟨manifests', hans', ha'⟩
  · exact hans.no_failure hi failure hf
  · cases hans.unique hans'
    rw [ha] at ha'
    cases ha'

/-- Two failures of one batch are the same, or both of them are in its wave. -/
theorem Fails.eq_or_mem_wave
    {failure failure' : Failure}
    (h : b.Fails answer c failure)
    (h' : b.Fails answer c failure') :
    failure = failure' ∨ (∃ identifier ∈ b.wave, answer identifier = .error failure) ∧
      ∃ identifier ∈ b.wave, answer identifier = .error failure' := by
  rcases h with hf | ⟨manifests, hans, ha⟩
  · rcases h' with hf' | ⟨manifests', hans', -⟩
    · exact Or.inr ⟨hf, hf'⟩
    · obtain ⟨identifier, hi, he⟩ := hf
      exact absurd he (hans'.no_failure hi failure)
  · rcases h' with ⟨identifier, hi, he⟩ | ⟨manifests', hans', ha'⟩
    · exact absurd he (hans.no_failure hi failure')
    · cases hans.unique hans'
      rw [ha] at ha'
      cases ha'
      exact Or.inl rfl

/-- A batch that has gone on has its roots. -/
theorem Moves.exists_discovery
    (h : b.Moves answer c next) :
    ∃ d, next.discovery = some d := by
  obtain ⟨manifests, hans, ha⟩ := h
  cases hd : b.discovery with
  | none =>
      rw [advance_none hd] at ha
      cases ha
      exact ⟨_, rfl⟩
  | some d =>
      obtain ⟨-, rfl⟩ := (advance_some hans.length_eq hd).1 ha
      exact ⟨_, rfl⟩

/-- A batch keeps its identifiers, and remembers what it has waited for. -/
theorem Moves.keeps
    (h : b.Moves answer c next) :
    next.identifiers = b.identifiers ∧ next.touched = b.touched ++ next.wave := by
  obtain ⟨manifests, hans, ha⟩ := h
  cases hd : b.discovery with
  | none =>
      rw [advance_none hd] at ha
      cases ha
      exact ⟨rfl, rfl⟩
  | some d =>
      obtain ⟨-, rfl⟩ := (advance_some hans.length_eq hd).1 ha
      exact ⟨rfl, rfl⟩

/-- A batch asks for nothing that is committed. -/
theorem Moves.wave_new
    (h : b.Moves answer c next)
    {name : String}
    (hname : name ∈ next.wave) :
    c.hasAssembly name = false := by
  obtain ⟨manifests, hans, ha⟩ := h
  cases hd : b.discovery with
  | none =>
      rw [advance_none hd] at ha
      cases ha
      exact (Discovery.mem_newNames_iff.1 hname).2.2
  | some d =>
      obtain ⟨-, rfl⟩ := (advance_some hans.length_eq hd).1 ha
      exact (Discovery.mem_newNames_iff.1 hname).2.2

theorem Moves.lawful
    (h : b.Moves answer c next)
    (hb : b.Lawful answer c) :
    next.Lawful answer c := by
  obtain ⟨manifests, hans, ha⟩ := h
  exact (hb.advance hans ha).1

end Moves
end Batch

/-- Two batches have come equally far, or both have failed, with failures of one wave. -/
inductive BatchState.Alike (answer : String → Except Failure Manifest) :
    BatchState → BatchState → Prop
  | same (state : BatchState) :
      Alike answer state state
  | failures {wave : List String} {failure failure' : Failure} :
      (∃ identifier ∈ wave, answer identifier = .error failure) →
      (∃ identifier ∈ wave, answer identifier = .error failure') →
      Alike answer (.ended (.error failure)) (.ended (.error failure'))

namespace Run

/-- What the turn of a batch makes of a registry and the batch: it fails with a failure in its wave, or
it proceeds with the manifests of its wave. -/
inductive Turn (answer : String → Except Failure Manifest) (r : TypeRegistry) (b : Batch) :
    TypeRegistry → BatchState → Prop
  | fails {identifier : String} {failure : Failure} :
      identifier ∈ b.wave →
      answer identifier = .error failure →
      Turn answer r b r (.ended (.error failure))
  | proceeds {manifests : List Manifest} :
      Batch.Answered answer b.wave manifests →
      Turn answer r b (proceed r b manifests).1 (proceed r b manifests).2

section Turn

variable {answer : String → Except Failure Manifest} {r after : TypeRegistry} {b next : Batch}
  {manifests : List Manifest}

/-- A batch that proceeds fails, goes on, or comes to its end. -/
theorem proceed_cases
    (hans : Batch.Answered answer b.wave manifests) :
    (∃ failure, b.advance r.catalog manifests = .error failure ∧
      proceed r b manifests = (r, .ended (.error failure))) ∨
    ∃ next, b.Moves answer r.catalog next ∧
      ((next.wave ≠ [] ∧ proceed r b manifests = (r, .active next)) ∨
        ∃ d, next.wave = [] ∧ next.discovery = some d ∧
          proceed r b manifests = ((settle r d).1, .ended (settle r d).2)) := by
  cases ha : b.advance r.catalog manifests with
  | error failure => exact Or.inl ⟨failure, rfl, by simp [proceed, ha]⟩
  | ok next =>
      have hmoves : b.Moves answer r.catalog next := ⟨manifests, hans, ha⟩
      obtain ⟨d, hd⟩ := hmoves.exists_discovery
      refine Or.inr ⟨next, hmoves, ?_⟩
      cases hw : next.wave with
      | nil => exact Or.inr ⟨d, rfl, hd, by simp [proceed, ha, hw, hd]⟩
      | cons name rest => exact Or.inl ⟨by simp, by simp [proceed, ha, hw]⟩

/-- A batch that is still on its way after its turn has gone on to another wave, with the registry as it
was. -/
theorem Turn.active
    (h : Turn answer r b after (.active next)) :
    after = r ∧ b.Moves answer r.catalog next ∧ next.wave ≠ [] := by
  generalize hs : BatchState.active next = state at h
  cases h with
  | fails hi hf => cases hs
  | proceeds hans =>
      rcases proceed_cases (r := r) hans with
        ⟨failure, -, hp⟩ | ⟨next', hm, ⟨hw, hp⟩ | ⟨d, -, -, hp⟩⟩ <;>
        rw [hp] at hs ⊢ <;> cases hs
      exact ⟨rfl, hm, hw⟩

/-- A batch that has ended with its turn has failed, or has gone on and come to its end. -/
theorem Turn.ended
    {result : Except Failure (List Manifest)}
    (h : Turn answer r b after (.ended result)) :
    (∃ failure, b.Fails answer r.catalog failure ∧ (after, result) = (r, .error failure)) ∨
    ∃ next d, b.Moves answer r.catalog next ∧ next.wave = [] ∧
      next.discovery = some d ∧ (after, result) = settle r d := by
  generalize hs : BatchState.ended result = state at h
  cases h with
  | fails hi hf =>
      cases hs
      exact Or.inl ⟨_, Or.inl ⟨_, hi, hf⟩, rfl⟩
  | @proceeds manifests hans =>
      rcases proceed_cases (r := r) hans with
        ⟨failure, ha, hp⟩ | ⟨next', hm, ⟨hw, hp⟩ | ⟨d, hw, hd, hp⟩⟩ <;>
        rw [hp] at hs ⊢ <;> cases hs
      · exact Or.inl ⟨failure, Or.inr ⟨manifests, hans, ha⟩, rfl⟩
      · exact Or.inr ⟨next', d, hm, hw, hd, rfl⟩

/-- What two turns of a batch make of one registry: the same, but for which failure of its wave is the
first. -/
theorem Turn.alike
    {after' : TypeRegistry}
    {state state' : BatchState}
    (h : Turn answer r b after state)
    (h' : Turn answer r b after' state') :
    after = after' ∧ state.Alike answer state' := by
  cases h with
  | fails hi hf =>
      cases h' with
      | fails hi' hf' => exact ⟨rfl, .failures ⟨_, hi, hf⟩ ⟨_, hi', hf'⟩⟩
      | proceeds hans => exact absurd hf (hans.no_failure hi _)
  | proceeds hans =>
      cases h' with
      | fails hi' hf' => exact absurd hf' (hans.no_failure hi' _)
      | proceeds hans' =>
          cases hans.unique hans'
          exact ⟨rfl, .same _⟩

theorem Turn.of_settle
    {d : Discovery}
    (hm : b.Moves answer r.catalog next)
    (hw : next.wave = [])
    (hd : next.discovery = some d) :
    Turn answer r b (settle r d).1 (.ended (settle r d).2) := by
  obtain ⟨manifests, hans, ha⟩ := hm
  have hp : proceed r b manifests = ((settle r d).1, .ended (settle r d).2) := by
    simp [proceed, ha, hw, hd]
  have h : Turn answer r b _ _ := .proceeds hans
  rwa [hp] at h

/-- A batch for which no wave is left has no other turn than its end. -/
theorem turn_iff_settle
    {d : Discovery}
    {state : BatchState}
    (hm : b.Moves answer r.catalog next)
    (hw : next.wave = [])
    (hd : next.discovery = some d) :
    Turn answer r b after state ↔
      after = (settle r d).1 ∧ state = .ended (settle r d).2 := by
  constructor
  · intro h
    cases state with
    | active other =>
        obtain ⟨-, hm', hw'⟩ := h.active
        exact absurd (hm.unique hm' ▸ hw) hw'
    | ended result =>
        rcases h.ended with ⟨failure, hf, -⟩ | ⟨other, d', hm', -, hd', he⟩
        · exact absurd hm hf.not_moves
        · cases hm.unique hm'
          rw [hd] at hd'
          cases hd'
          simp [← he]
  · rintro ⟨rfl, rfl⟩
    exact .of_settle hm hw hd

/-- A batch has a turn: it fails, goes on, or comes to its end. -/
theorem exists_turn
    (answer : String → Except Failure Manifest)
    (r : TypeRegistry)
    (b : Batch) :
    (∃ failure, b.Fails answer r.catalog failure) ∨
      ∃ next, b.Moves answer r.catalog next := by
  rcases Batch.answered_or_failure answer b.wave with ⟨manifests, hans⟩ | ⟨failure, hf⟩
  · cases ha : b.advance r.catalog manifests with
    | error failure => exact Or.inl ⟨failure, Or.inr ⟨manifests, hans, ha⟩⟩
    | ok next => exact Or.inr ⟨next, manifests, hans, ha⟩
  · exact Or.inl ⟨failure, Or.inl hf⟩

end Turn

end Run

section Settle

variable {resolver : Resolver} {limit : Option Number} {r : TypeRegistry} {d : Discovery}
  {wave : List String}

/-- What a resolver has answered owns its types. -/
theorem Discovery.Lawful.owns
    {c : Catalog}
    (h : d.Lawful (resolver.settle limit) c wave)
    {m : Manifest}
    (hm : m ∈ d.found) :
    m.Owns := by
  obtain ⟨identifier, hans⟩ := h.answered m hm
  exact Resolver.owns_of_settle hans

variable (hd : d.Lawful (resolver.settle limit) r.catalog wave)
include hd

/-- What has been linked is committed without a failure: it is published as a whole, and has its roots. -/
theorem Run.commit_of_link
    (hi : r.catalog.Indexed)
    {batch : List Manifest}
    (hlink : d.link r.catalog = .ok batch) :
    ∃ after found, r.commit batch d.rootNames = (after, .ok ()) ∧
      r.Published after batch d.rootNames ∧
      d.rootNames.mapM after.catalog.assemblyNamed = .ok found := by
  have ho : ∀ m ∈ d.found, m.Owns := fun _ => hd.owns
  obtain ⟨hperm, -, ha, -⟩ := Discovery.link_ok hi hd.found_nodup ho hlink
  have hroots : ∀ name ∈ d.rootNames, (r.catalog.append batch).hasAssembly name = true :=
    fun name hname =>
      Discovery.hasAssembly_of_link hi hd.found_nodup ho hlink (hd.roots_known name hname)
  obtain ⟨after, hcommit, hpub⟩ := Registry.commit_published ha hroots
  have hindexed := hi.append ha fun m hm =>
    hd.owns (Discovery.mem_fresh_iff.1 (hperm.mem_iff.1 hm)).1
  have hafter := hpub.assemblies_eq
  have hnamed : ∀ name ∈ d.rootNames, ∃ m, after.catalog.assemblyNamed name = .ok m := by
    intro name hname
    obtain ⟨m, hm, he⟩ := Catalog.hasAssembly_iff.1 (hroots name hname)
    refine ⟨m, (Catalog.assemblyNamed_ok_iff ?_).2 ⟨?_, he⟩⟩
    · rw [hafter]
      exact hindexed.names_nodup
    · rw [hafter]
      exact hm
  obtain ⟨found, hfound⟩ := exists_results hnamed
  exact ⟨after, found, hcommit, hpub, hfound⟩

/-- At its end a batch fails with the registry as it was, or it is published as a whole and has its
roots. -/
theorem Run.settle_cases
    (hi : r.catalog.Indexed) :
    (∃ failure, d.link r.catalog = .error failure ∧ settle r d = (r, .error failure)) ∨
    ∃ batch after found, d.link r.catalog = .ok batch ∧ r.Published after batch d.rootNames ∧
      d.rootNames.mapM after.catalog.assemblyNamed = .ok found ∧
      settle r d = (after, .ok found) := by
  cases hlink : d.link r.catalog with
  | error failure => exact Or.inl ⟨failure, rfl, by simp [settle, hlink]⟩
  | ok batch =>
      obtain ⟨after, found, hcommit, hpub, hfound⟩ := commit_of_link hd hi hlink
      refine Or.inr ⟨batch, after, found, rfl, hpub, hfound, ?_⟩
      simp [settle, hlink, hcommit, hfound]

/-- A published batch keeps the catalog coherent. -/
theorem Registry.Published.coherent
    {after : TypeRegistry}
    {batch : List Manifest}
    (h : r.Published after batch d.rootNames)
    (hc : r.catalog.Coherent)
    (hlink : d.link r.catalog = .ok batch) :
    after.catalog.Coherent := by
  have ho : ∀ m ∈ d.found, m.Owns := fun _ => hd.owns
  obtain ⟨hperm, hfirst, ha, hs⟩ := Discovery.link_ok hc.toIndexed hd.found_nodup ho hlink
  have hown : ∀ m ∈ batch, m.Owns :=
    fun m hm => hd.owns (Discovery.mem_fresh_iff.1 (hperm.mem_iff.1 hm)).1
  obtain ⟨rootNames, rfl, hmem⟩ := h
  refine (hc.append ha hown hfirst hs).withRoots ?_
  intro name hname
  rcases (hmem name).1 hname with hold | hnew
  · exact Catalog.hasAssembly_append.2 (Or.inl (hc.roots name hold))
  · exact Discovery.hasAssembly_of_link hc.toIndexed hd.found_nodup ho hlink
      (hd.roots_known name hnew)

/-- However a batch comes to its end, the catalog stays coherent and loses nothing. -/
theorem Run.settle_coherent
    (hc : r.catalog.Coherent) :
    (settle r d).1.catalog.Coherent ∧ r.catalog.Within (settle r d).1.catalog := by
  rcases settle_cases hd hc.toIndexed with
    ⟨failure, -, hs⟩ | ⟨batch, after, found, hlink, hpub, -, hs⟩
  · rw [hs]
    exact ⟨hc, fun _ hname => hname⟩
  · rw [hs]
    exact ⟨hpub.coherent hd hc hlink, hpub.within⟩

end Settle

end TypeGraph
