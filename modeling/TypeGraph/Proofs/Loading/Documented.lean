import TypeGraph.Proofs.Loading.Available
import TypeGraph.Resolver.SearchRoots
import TypeGraph.Resolver.Table

/-!
# How a load fails

A load is documented to fail in six ways: an identifier was not resolved, a manifest was malformed,
something inherits from itself, a full name was declared twice, a reference was not resolved, or
assemblies depend on each other in a cycle.  Each phase of a load fails in some of these, provided that
the resolver has no failures of its own but that there is no manifest, and that the answer to an
identifier does not break off at a number; and what could fail otherwise is not reached, because nothing
is missing that is looked up.

**Results.**
* `Resolver.BreaksOff.not_documented`, `Resolver.OnlyMisses.documented_or_breaksOff`: what an answer is
  when it is not documented.
* `Batch.Fails.documented_or_breaksOff`, `Linking.documented_of_check`, `Run.documented_of_settle`: how
  each phase fails.
* `Run.documented_of_turn`: a batch that ends with a failure ends with a documented one, or an answer to
  its wave breaks off.
* `Run.complete_documented`: so does every load of a loop.
-/

namespace TypeGraph

namespace Failure

/-- The classes of the failures that a load is documented to end with. -/
def documentedClasses : List FailureClass :=
  [.resolution, .malformed, .inheritanceCycle, .duplicateFqn, .unresolvedReference, .dependencyCycle]

/-- A failure that a load is documented to end with. -/
def Documented (f : Failure) : Prop :=
  f.report.failureClass ∈ documentedClasses

/-- All failures are documented but those of look-ups, numbers that are not converted, what never ends,
and what a resolver may report of its own. -/
@[simp] theorem documented_iff
    {f : Failure} :
    f.Documented ↔
      (∀ report, f = .reported report → report.failureClass ∈ documentedClasses) ∧
      f ≠ .endlessDependencies ∧ f ≠ .limitTooLarge ∧ (∀ fault, f ≠ .tooManyDigits fault) ∧
      (∀ identifier, f ≠ .unanswered identifier) ∧ (∀ key, f ≠ .typeNotLoaded key) ∧
      (∀ key, f ≠ .assemblyNotLoaded key) ∧
      (∀ fqn found wanted, f ≠ .otherKind fqn found wanted) ∧
      ∀ assembly key, f ≠ .notDeclared assembly key := by
  cases f <;> simp [Documented, report, documentedClasses]

end Failure

/-- The failures with which a resolver answers all say that it has no manifest. -/
def Resolver.OnlyMisses (r : Resolver) : Prop :=
  ∀ identifier failure, r.answer identifier = .failure failure →
    failure = .notRegistered identifier ∨ ∃ searched, failure = .notLocated identifier searched

/-- A table without failures misses only what it does not list. -/
theorem AnswerTable.onlyMisses_resolver
    {table : AnswerTable}
    (h : ∀ entry ∈ table, ∀ failure, entry.2 ≠ .failure failure) :
    (AnswerTable.resolver table).OnlyMisses := by
  intro identifier failure hans
  change AnswerTable.answer table identifier = .failure failure at hans
  unfold AnswerTable.answer at hans
  split at hans
  · rename_i answer hlook
    exact absurd hans (h _ (Nodes.mem_of_lookup hlook) failure)
  · cases hans
    exact Or.inl rfl

/-- A disk misses only what is nowhere on it. -/
theorem SearchRoots.onlyMisses_resolver
    (disk : Disk)
    (options : LoadOptions) :
    (SearchRoots.resolver disk options).OnlyMisses := by
  intro identifier failure hans
  change SearchRoots.answer disk options identifier = .failure failure at hans
  unfold SearchRoots.answer at hans
  split at hans
  · cases hans
  · rename_i other searched hnowhere
    cases hans
    obtain rfl := SearchRoots.identifier_of_nowhere hnowhere
    exact Or.inr ⟨_, rfl⟩
  · split at hans <;> cases hans

/-- The answer to an identifier breaks off: the limit is no time to wait for, an integer of the manifest, or
of what is told of it, has too many digits, or there is no answer and no limit. -/
inductive Resolver.BreaksOff (r : Resolver) (limit : Option Number) (identifier : String) :
    Failure → Prop
  | limit {failure : Failure} :
      limitFault? limit = some failure →
      BreaksOff r limit identifier failure
  | digits {source : Source} {m : Malformed} {fault : Json.DigitFault} :
      limitFault? limit = none →
      r.isTooSlow limit = false →
      r.answer identifier = .source source →
      Manifest.decode source = .error m →
      m.defect.digitFault? = some fault →
      BreaksOff r limit identifier (.tooManyDigits fault)
  | endless :
      limit = none →
      r.isTooSlow limit = false →
      r.answer identifier = .never →
      BreaksOff r limit identifier (.unanswered identifier)

section Answers

variable {resolver : Resolver} {limit : Option Number} {identifier : String} {failure : Failure}

/-- A limit that cannot be waited for is no documented failure. -/
theorem Resolver.not_documented_of_limitFault
    (h : limitFault? limit = some failure) :
    ¬ failure.Documented := by
  unfold limitFault? at h
  split at h
  · split at h
    · split at h <;> cases h
      simp
    · split at h <;> cases h
      simp
  · cases h

/-- An answer that breaks off is not documented. -/
theorem Resolver.BreaksOff.not_documented
    (h : resolver.BreaksOff limit identifier failure) :
    ¬ failure.Documented := by
  cases h with
  | limit hf => exact not_documented_of_limitFault hf
  | digits => simp
  | endless => simp

/-- What breaks off is what the resolver answers. -/
theorem Resolver.BreaksOff.settle_eq
    (h : resolver.BreaksOff limit identifier failure) :
    resolver.settle limit identifier = .error failure := by
  cases h with
  | limit hf => simp [settle, hf]
  | digits hf hslow ha hd hdigits =>
      simp [settle, hf, hslow, ha, hd, Except.mapError, Failure.ofMalformed, hdigits]
  | endless hnone hslow ha =>
      subst hnone
      simp [settle, limitFault?, hslow, ha]

/-- What a resolver without failures of its own does not answer with a manifest is not resolved, is
malformed, or breaks off. -/
theorem Resolver.OnlyMisses.class_of_settle
    (h : resolver.OnlyMisses)
    (hans : resolver.settle limit identifier = .error failure) :
    failure.report.failureClass = .resolution ∧ (∀ other, failure ≠ .unanswered other) ∨
      failure.report.failureClass = .malformed ∨ resolver.BreaksOff limit identifier failure := by
  unfold Resolver.settle at hans
  split at hans
  · rename_i fault hf
    cases hans
    exact Or.inr (Or.inr (.limit hf))
  rename_i hfault
  split at hans
  · cases hans
    exact Or.inl ⟨rfl, by simp⟩
  rename_i hslow
  rw [Bool.not_eq_true] at hslow
  split at hans
  · rename_i source hsource
    cases hd : Manifest.decode source with
    | ok m => simp [hd, Except.mapError] at hans
    | error m =>
        simp only [hd, Except.mapError, Except.error.injEq] at hans
        subst hans
        unfold Failure.ofMalformed
        split
        · rename_i fault hdigits
          exact Or.inr (Or.inr (.digits hfault hslow hsource hd hdigits))
        · exact Or.inr (Or.inl rfl)
  · rename_i other hother
    cases hans
    rcases h _ _ hother with rfl | ⟨searched, rfl⟩ <;>
      exact Or.inl ⟨rfl, by simp⟩
  · cases hans
    exact Or.inl ⟨rfl, by simp⟩
  · cases hans
    exact Or.inl ⟨rfl, by simp⟩
  · rename_i hnever
    split at hans <;> cases hans
    · exact Or.inl ⟨rfl, by simp⟩
    · exact Or.inr (Or.inr (.endless rfl hslow hnever))

theorem Resolver.OnlyMisses.documented_or_breaksOff
    (h : resolver.OnlyMisses)
    (hans : resolver.settle limit identifier = .error failure) :
    failure.Documented ∨ resolver.BreaksOff limit identifier failure := by
  rcases h.class_of_settle hans with ⟨hclass, -⟩ | hclass | hbreaks
  · exact Or.inl (by simp [Failure.Documented, Failure.documentedClasses, hclass])
  · exact Or.inl (by simp [Failure.Documented, Failure.documentedClasses, hclass])
  · exact Or.inr hbreaks

end Answers

/-- A wave of dependencies is refused because a manifest declares another name. -/
theorem Discovery.class_of_addWave
    {c : Catalog}
    {found : List Manifest}
    {answers : List (String × Manifest)}
    {failure : Failure}
    (h : addWave c found answers = .error failure) :
    failure.report.failureClass = .malformed := by
  induction answers generalizing found with
  | nil => cases h
  | cons first rest ih =>
      obtain ⟨name, m⟩ := first
      rw [addWave] at h
      split at h
      · exact ih h
      · cases h
        rfl

/-- A batch that fails with its wave fails with what an identifier of it is answered with, or because a
manifest is malformed. -/
theorem Batch.Fails.answered_or_malformed
    {answer : String → Except Failure Manifest}
    {c : Catalog}
    {b : Batch}
    {failure : Failure}
    (h : b.Fails answer c failure) :
    (∃ identifier ∈ b.wave, answer identifier = .error failure) ∨
      failure.report.failureClass = .malformed := by
  rcases h with hwave | ⟨manifests, -, hadvance⟩
  · exact Or.inl hwave
  · unfold Batch.advance Batch.discoverDependencies at hadvance
    split at hadvance
    · cases hadvance
    · split at hadvance
      · rename_i other hadd
        cases hadvance
        exact Or.inr (Discovery.class_of_addWave hadd)
      · cases hadvance

/-- A batch that fails with its wave fails as it is documented, or an answer to its wave breaks off. -/
theorem Batch.Fails.documented_or_breaksOff
    {resolver : Resolver}
    {limit : Option Number}
    {c : Catalog}
    {b : Batch}
    {failure : Failure}
    (hr : resolver.OnlyMisses)
    (h : b.Fails (resolver.settle limit) c failure) :
    failure.Documented ∨ ∃ identifier ∈ b.wave, resolver.BreaksOff limit identifier failure := by
  rcases h.answered_or_malformed with ⟨identifier, hi, hans⟩ | hclass
  · exact (hr.documented_or_breaksOff hans).imp_right fun hbreaks => ⟨identifier, hi, hbreaks⟩
  · exact Or.inl (by simp [Failure.Documented, Failure.documentedClasses, hclass])

/-- A list of checks fails with the failure of one of them. -/
theorem exists_of_checkAll_error
    {α ε : Type}
    {check : α → Except ε Unit}
    {xs : List α}
    {fault : ε}
    (h : checkAll check xs = .error fault) :
    ∃ x ∈ xs, check x = .error fault := by
  induction xs with
  | nil => cases h
  | cons x rest ih =>
      rw [checkAll] at h
      split at h
      · rename_i other hx
        cases h
        exact ⟨x, by simp, hx⟩
      · obtain ⟨y, hy, he⟩ := ih h
        exact ⟨y, List.mem_cons_of_mem _ hy, he⟩

namespace Linking

section Checks

variable {c : Catalog} {batch : List Manifest} {failure : Failure}

theorem documented_of_checkUnique
    {staged : List TypeDef}
    {declared : List (String × TypeDef)}
    (h : checkUnique c staged declared = .error failure) :
    failure.Documented := by
  induction declared generalizing staged with
  | nil => cases h
  | cons first rest ih =>
      obtain ⟨assembly, t⟩ := first
      rw [checkUnique] at h
      split at h
      · cases h
        simp
      · exact ih h

theorem documented_of_checkKind
    {assembly : String}
    {t target : TypeDef}
    {site : Site}
    (h : checkKind assembly t site target = .error failure) :
    failure.Documented := by
  unfold checkKind at h
  split at h
  · split at h <;> cases h
    simp
  · split at h <;> cases h
    simp
  · cases h

theorem documented_of_checkSite
    {types : List TypeDef}
    {visible : List String}
    {assembly : String}
    {t : TypeDef}
    {site : Site}
    (h : checkSite types visible assembly t site = .error failure) :
    failure.Documented := by
  unfold checkSite at h
  split at h
  · cases h
    simp
  · split at h
    · exact documented_of_checkKind h
    · cases h
      simp

/-- Where everything that an assembly leads to is at hand, its references fail as it is documented. -/
theorem documented_of_checkReferences
    {m : Manifest}
    (hv : ∃ visible, (dependencyGraph c batch).closure [m.name] = .ok visible)
    (h : checkReferences c batch m = .error failure) :
    failure.Documented := by
  obtain ⟨visible, hv⟩ := hv
  simp only [checkReferences, hv] at h
  obtain ⟨t, -, ht⟩ := exists_of_checkAll_error h
  obtain ⟨site, -, hsite⟩ := exists_of_checkAll_error ht
  exact documented_of_checkSite hsite

theorem documented_of_checkInheritance
    {types : List TypeDef}
    {t : TypeDef}
    (h : checkInheritance types t = .error failure) :
    failure.Documented := by
  unfold checkInheritance at h
  split at h
  · simp only at h
    split at h <;> cases h
    simp
  · simp only at h
    split at h <;> cases h
    simp
  · cases h

/-- What the checks of a batch fail with is what one of them reports.  Those of references and of
inheritance are made only when the full names are declared once. -/
theorem check_error_cases
    (h : check c batch = .error failure) :
    checkUnique c [] (declarations batch) = .error failure ∨
      checkUnique c [] (declarations batch) = .ok () ∧
        ((∃ m ∈ batch, checkReferences c batch m = .error failure) ∨
          ∃ t ∈ batch.flatMap Manifest.types,
            checkInheritance (knownTypes c batch) t = .error failure) := by
  unfold check at h
  rcases bind_eq_error_iff.1 h with hunique | ⟨_, hunique, hrest⟩
  · exact Or.inl hunique
  · rcases bind_eq_error_iff.1 hrest with hreferences | ⟨_, -, hinheritance⟩
    · exact Or.inr ⟨hunique, Or.inl (exists_of_checkAll_error hreferences)⟩
    · exact Or.inr ⟨hunique, Or.inr (exists_of_checkAll_error hinheritance)⟩

/-- Where everything that the assemblies of a batch lead to is at hand, its checks fail as it is
documented. -/
theorem documented_of_check
    (hv : ∀ m ∈ batch, ∃ visible, (dependencyGraph c batch).closure [m.name] = .ok visible)
    (h : check c batch = .error failure) :
    failure.Documented := by
  rcases check_error_cases h with hunique | ⟨-, ⟨m, hm, hreferences⟩ | ⟨t, -, hinheritance⟩⟩
  · exact documented_of_checkUnique hunique
  · exact documented_of_checkReferences (hv m hm) hreferences
  · exact documented_of_checkInheritance hinheritance

end Checks
end Linking

namespace Run

section Turn

variable {resolver : Resolver} {limit : Option Number} {r after : TypeRegistry} {b : Batch}
  {d : Discovery} {failure : Failure}

/-- Where no wave is left and nothing is missing, a batch fails as it is documented. -/
theorem documented_of_settle
    (hi : r.catalog.Indexed)
    (hd : d.Lawful (resolver.settle limit) r.catalog [])
    (hn : d.NothingMissing r)
    (h : settle r d = (after, .error failure)) :
    failure.Documented := by
  rcases settle_cases hd hi with ⟨other, hlink, hs⟩ | ⟨batch, published, found, -, -, -, hs⟩ <;>
    rw [hs] at h <;> cases h
  rcases Discovery.link_error hlink with ⟨path, -, rfl⟩ | ⟨batch, hb, hcheck⟩
  · simp
  · exact Linking.documented_of_check (hn.visible batch hb) hcheck

/-- When a batch comes to its end, nothing is missing that it looks up. -/
theorem nothingMissing_of_moves
    {next : Batch}
    (hc : r.catalog.Coherent)
    (hb : b.Lawful (resolver.settle limit) r.catalog)
    (hs : b.Supplied (resolver.settle limit) r.catalog)
    (hm : b.Moves (resolver.settle limit) r.catalog next)
    (hw : next.wave = [])
    (hd : next.discovery = some d) :
    d.NothingMissing r := by
  have hsupplied := (hs.moves hm).learned d hd
  rw [hw] at hsupplied
  exact hsupplied.nothingMissing hc ((hm.lawful hb).learned d hd)

/-- A batch that ends with a failure ends with a documented one, or an answer to its wave breaks off. -/
theorem documented_of_turn
    (hr : resolver.OnlyMisses)
    (hc : r.catalog.Coherent)
    (hb : b.Lawful (resolver.settle limit) r.catalog)
    (hs : b.Supplied (resolver.settle limit) r.catalog)
    (h : Turn (resolver.settle limit) r b after (.ended (.error failure))) :
    failure.Documented ∨ ∃ identifier ∈ b.wave, resolver.BreaksOff limit identifier failure := by
  rcases h.ended with ⟨other, hf, he⟩ | ⟨next, d, hm, hw, hd, he⟩
  · cases he
    exact hf.documented_or_breaksOff hr
  · have hlawful := (hm.lawful hb).learned d hd
    rw [hw] at hlawful
    exact Or.inl (documented_of_settle hc.toIndexed hlawful
      (nothingMissing_of_moves hc hb hs hm hw hd) he.symm)

end Turn

section Runs

variable {resolver : Resolver} (limit : Option Number) (hr : resolver.OnlyMisses)
include hr

/-- Turns keep batches supplied, and those that have ended in failure have failed as it is documented, or
with an answer that breaks off. -/
theorem kept_documented :
    Kept resolver limit fun r _ batches =>
      (∀ b, .active b ∈ batches → b.Supplied (resolver.settle limit) r.catalog) ∧
        ∀ failure, .ended (.error failure) ∈ batches →
          failure.Documented ∨ ∃ identifier, resolver.BreaksOff limit identifier failure where
  goesOn r ended before b after next hc hb h ht := by
    refine ⟨(kept_supplied resolver limit).goesOn _ ended _ _ _ _ hc hb h.1 ht, ?_⟩
    intro failure hf
    refine h.2 failure ?_
    simpa using hf
  ends r ended before b after r' result hc hb h ht := by
    refine ⟨(kept_supplied resolver limit).ends _ ended _ _ _ _ _ hc hb h.1 ht, ?_⟩
    intro failure hf
    simp only [List.mem_append, List.mem_cons, BatchState.ended.injEq] at hf
    rcases hf with hf | rfl | hf
    · exact h.2 failure (by simp [hf])
    · exact (documented_of_turn hr hc hb (h.1 b (by simp)) ht).imp_right
        fun ⟨identifier, _, hbreaks⟩ => ⟨identifier, hbreaks⟩
    · exact h.2 failure (by simp [hf])

/-- Every load of a loop ends, and if it fails, as it is documented, or with an answer that breaks off. -/
theorem complete_documented
    {r : TypeRegistry}
    (hc : r.catalog.Coherent)
    (groups : List (List String)) :
    ∀ state ∈ (Loop.complete resolver limit r groups).states,
      ∃ result, state = .ended result ∧ ∀ failure, result = .error failure →
        failure.Documented ∨ ∃ identifier, resolver.BreaksOff limit identifier failure := by
  obtain ⟨-, hended, -, hdocumented⟩ := Loop.complete_induction hc (kept_documented limit hr) groups
    ⟨supplied_start _ _ groups, by simp⟩
  intro state hstate
  obtain ⟨result, rfl⟩ := hended state hstate
  refine ⟨result, rfl, ?_⟩
  rintro failure rfl
  exact hdocumented failure hstate

end Runs
end Run
end TypeGraph
