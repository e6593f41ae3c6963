import Mathlib
import TypeGraph.Proofs.Json.LongIntegers
import TypeGraph.Proofs.Loading.Documented
import TypeGraph.Proofs.System.Alike

/-!
# Loads fail as documented

However loads are interleaved, each of them accounts for what it needs at every moment, so that nothing
is missing when it comes to its end.  So it succeeds, or fails in one of the ways that are documented;
that an assembly is not found, or a type, is not one of them.  The one exception is an answer that breaks
off at a number: a document with an integer of too many digits is no malformed manifest.

**Results.**
* `Moment.Reached.provided`: at every moment the loads on their way are supplied.
* `TypeSystem.load_fails_as_documented`: a load succeeds, fails as it is documented, or with an answer that
  breaks off.
* `TypeSystem.long_integer_not_documented`: a document whose answer breaks off.
-/

namespace TypeGraph

namespace Moment

/-- The loads on their way account for what they have waited for and for what they need. -/
def Provided (s : Moment) : Prop :=
  ∀ p ∈ s.pending, p.batch.Supplied (p.resolver.settle p.limit) s.registry.catalog

section Provided

variable {s s' : Moment}

/-- A change keeps the loads on their way supplied. -/
theorem Change.provided
    (hs : s.Change s')
    (h : s.Orderly)
    (hp : s.Provided) :
    s'.Provided := by
  cases hs with
  | @begins r ps resolver limit identifiers =>
      intro p hmem
      rcases List.mem_append.1 hmem with hmem | hmem
      · exact hp p hmem
      · rw [List.mem_singleton.1 hmem]
        exact Batch.Supplied.start _ _ _
  | @goesOn r r' before after p next ht =>
      obtain ⟨rfl, hmoves, -⟩ := ht.active
      intro q hq
      simp only [List.mem_append, List.mem_cons] at hq
      rcases hq with hq | rfl | hq
      · exact hp q (by simp [hq])
      · exact (hp p (by simp)).moves hmoves
      · exact hp q (by simp [hq])
  | @ends r r' before after p result ht =>
      obtain ⟨-, -, hwithin⟩ := turn_ended h.coherent (h.lawful p (by simp)) ht
      intro q hq
      refine (hp q ?_).mono hwithin
      simp only [List.mem_append, List.mem_cons] at hq ⊢
      exact hq.imp_right Or.inr
  | @promotes r r' ps name hpromote =>
      obtain ⟨-, -, hwithin⟩ := promote_coherent h.coherent hpromote
      exact fun q hq => (hp q hq).mono hwithin

/-- A step keeps the loads on their way supplied. -/
theorem Step.provided
    (hs : s.Step s')
    (h : s.Orderly)
    (hp : s.Provided) :
    s'.Provided := by
  cases hs with
  | changes hchange => exact hchange.provided h hp
  | asks ha =>
      intro p hmem
      rw [(h.asks ha).1.catalog_eq]
      exact hp p hmem

/-- At every moment that is reached the loads on their way are supplied. -/
theorem Reached.provided
    (h : s.Reached) :
    s.Provided := by
  induction h with
  | refl => exact fun p hp => absurd hp (by simp [start])
  | tail hs hstep ih => exact hstep.provided (Reached.orderly hs) ih

end Provided
end Moment

/-- A text that is not read is refused with the fault. -/
theorem Manifest.decode_of_read_error
    {text : String}
    {fault : Json.ReadFault}
    (h : Json.read text = .error fault) :
    decode (.text text) = .error ⟨none, none, .notJson fault⟩ := by
  simp [decode, ofText, h, unattributed, Except.mapError]

namespace TypeSystem

section Loads

variable {s : TypeSystem} (h : s.AtRest) {resolver : Resolver} (limit : Option Number)
include h

/-- The load of several groups fails for each of them as it is documented, or with an answer that breaks
off. -/
theorem AtRest.documented_of_loadTogether
    (hr : resolver.OnlyMisses)
    (groups : List (List String))
    {failure : Failure}
    (hf : .error failure ∈ (s.loadTogether resolver limit groups).2.result) :
    failure.Documented ∨ ∃ identifier, resolver.BreaksOff limit identifier failure := by
  obtain ⟨state, hstate, he⟩ := List.mem_map.1 hf
  obtain ⟨result, rfl, hdocumented⟩ := Run.complete_documented limit hr h.coherent groups state hstate
  exact hdocumented failure he

/-- The load of some roots is that of a single group. -/
theorem AtRest.loadTogether_singleton
    (identifiers : List String) :
    (s.loadTogether resolver limit [identifiers]).2.result =
      [(s.loadRoots resolver limit identifiers).2.result] := by
  have hlength : (s.loadTogether resolver limit [identifiers]).2.result.length = 1 :=
    (List.length_map _).trans (Loop.length_states h.coherent resolver limit [identifiers])
  obtain ⟨result, he⟩ := List.length_eq_one_iff.1 hlength
  simp [loadRoots, he]

/-- The load of a root that is not committed and has no manifest fails with what it is answered. -/
theorem AtRest.loadRoots_error
    {identifier : String}
    {failure : Failure}
    (hnew : s.catalog.hasAssembly identifier = false)
    (hans : resolver.settle limit identifier = .error failure) :
    (s.loadRoots resolver limit [identifier]).2.result = .error failure := by
  have hwave : (Batch.start s.catalog [identifier]).wave = [identifier] := by
    simp [Batch.start, Batch.firstWave, hnew, List.eraseDups_cons]
  have hno : ∀ manifests, ¬ Batch.Answered (resolver.settle limit)
      (Batch.start s.catalog [identifier]).wave manifests := by
    intro manifests hanswered
    refine hanswered.no_failure ?_ failure hans
    rw [hwave]
    exact List.mem_singleton.2 rfl
  obtain ⟨b, hway, hstops⟩ := loadRoots_alone h.coherent resolver limit [identifier]
  obtain rfl : b = .start s.catalog [identifier] := by
    rcases Relation.ReflTransGen.cases_head hway with he | ⟨next, ⟨manifests, hanswered, -⟩, -⟩
    · exact he.symm
    · exact absurd hanswered (hno manifests)
  rcases hstops with ⟨other, hfails | ⟨manifests, hanswered, -⟩, he⟩ | ⟨d, -, hd, -⟩
  · obtain ⟨asked, hasked, hother⟩ := hfails
    rw [hwave, List.mem_singleton] at hasked
    rw [hasked, hans] at hother
    cases hother
    exact congrArg Prod.snd he
  · exact absurd hanswered (hno manifests)
  · cases hd

end Loads

/-- At any moment that is reached, whatever else goes on, a load whose resolver has no failures of its own,
such as any table without failures and any disk, ends with its assemblies, fails in one of the six ways
that are documented, or fails because the answer to an identifier that it waits for breaks off.  So it does
alone, and together with others.  What breaks off is none of the documented failures.

When a load comes to its end at such a moment, even if its resolver has other failures, nothing is missing
that it looks up: the assemblies that its own lead to are found, so are the types that the checks of
inheritance come to, which are classes where a base is read and interfaces where others are listed, and its
roots are found while it is committed and after. -/
theorem load_fails_as_documented
    {m : Moment}
    (hm : m.Reached) :
    (∀ p ∈ m.pending,
      (p.resolver.OnlyMisses → ∀ registry failure,
        p.Turns m.registry registry (.ended (.error failure)) →
          failure.Documented ∨
            ∃ identifier ∈ p.batch.wave, p.resolver.BreaksOff p.limit identifier failure) ∧
      ∀ next d, p.batch.Moves (p.resolver.settle p.limit) m.registry.catalog next →
        next.wave = [] → next.discovery = some d → d.NothingMissing m.registry) ∧
    (∀ resolver limit, resolver.OnlyMisses →
      (∀ identifiers failure,
        (loadRoots ⟨m.registry⟩ resolver limit identifiers).2.result = .error failure →
          failure.Documented ∨ ∃ identifier, resolver.BreaksOff limit identifier failure) ∧
      ∀ groups failure, .error failure ∈ (loadTogether ⟨m.registry⟩ resolver limit groups).2.result →
        failure.Documented ∨ ∃ identifier, resolver.BreaksOff limit identifier failure) ∧
    (∀ (resolver : Resolver) limit identifier failure,
      resolver.BreaksOff limit identifier failure →
        resolver.settle limit identifier = .error failure ∧ ¬ failure.Documented) ∧
    (∀ table : AnswerTable, (∀ entry ∈ table, ∀ failure, entry.2 ≠ .failure failure) →
      (AnswerTable.resolver table).OnlyMisses) ∧
    ∀ disk options, (SearchRoots.resolver disk options).OnlyMisses := by
  have hc := hm.orderly.coherent
  refine ⟨fun p hp => ?_, fun resolver limit hr => ?_,
    fun _ _ _ _ hbreaks => ⟨hbreaks.settle_eq, hbreaks.not_documented⟩,
    fun _ => AnswerTable.onlyMisses_resolver, SearchRoots.onlyMisses_resolver⟩
  · have hlawful := hm.orderly.lawful p hp
    have hsupplied := hm.provided p hp
    refine ⟨fun hr registry failure ht => ?_, fun next d hmoves hw hd => ?_⟩
    · exact Run.documented_of_turn hr hc hlawful hsupplied ht
    · exact Run.nothingMissing_of_moves hc hlawful hsupplied hmoves hw hd
  · have hrest : AtRest ⟨m.registry⟩ := ⟨hc⟩
    have hgroups : ∀ groups failure,
        .error failure ∈ (loadTogether ⟨m.registry⟩ resolver limit groups).2.result →
          failure.Documented ∨ ∃ identifier, resolver.BreaksOff limit identifier failure :=
      fun groups _ hf => hrest.documented_of_loadTogether limit hr groups hf
    refine ⟨fun identifiers failure hf => hgroups [identifiers] failure ?_, hgroups⟩
    rw [hrest.loadTogether_singleton, hf]
    exact List.mem_singleton.2 rfl

/-- A table with an application that has a class whose base is nowhere declared. -/
def unknownBase : AnswerTable :=
  [("app", .source (.value (.object [("name", .string "app"), ("version", .string "1"),
    ("types", .object [("app.Widget", .object [("kind", .string "class"),
      ("base", .string "app.Part")])])])))]

/-- The load of the application fails because of its reference.  Nothing else was missing when it came
to its end. -/
theorem load_fails_as_documented_of_unknownBase :
    let resolver := AnswerTable.resolver unknownBase
    let batch := Batch.start Catalog.empty ["app"]
    let failure := Failure.unresolvedReference "app" "app.Widget" ⟨"app.Part", .base⟩
    let m : Moment := ⟨.empty, [⟨resolver, none, batch⟩]⟩
    m.Reached ∧ resolver.OnlyMisses ∧
    (loadRoots ⟨m.registry⟩ resolver none ["app"]).2.result = .error failure ∧
    (failure.Documented ∨ ∃ identifier, resolver.BreaksOff none identifier failure) ∧
    ∃ next d, batch.Moves (resolver.settle none) Catalog.empty next ∧ next.wave = [] ∧
      next.discovery = some d ∧ d.found.map Manifest.name = ["app"] ∧ d.NothingMissing .empty := by
  intro resolver batch failure m
  have hreached : m.Reached :=
    .single (.changes (@Moment.Change.begins .empty [] resolver none ["app"]))
  obtain ⟨hmoments, hloads, -, htables, -⟩ := load_fails_as_documented hreached
  have hmisses : resolver.OnlyMisses := htables unknownBase (by simp [unknownBase])
  have hfails : (loadRoots ⟨m.registry⟩ resolver none ["app"]).2.result = .error failure := by
    unfold m resolver failure
    cbv
  -- the manifest of the application is there after one wave, and it has no dependencies
  have happ : (resolver.settle none "app").map (fun m => (m.name, m.dependencyNames)) =
      .ok ("app", []) := by
    unfold resolver
    cbv
  cases hm : resolver.settle none "app" with
  | error other =>
      rw [hm] at happ
      cases happ
  | ok n =>
      rw [hm] at happ
      obtain ⟨hname, hdependencies⟩ := Prod.mk.inj (Except.ok.inj happ)
      have hmoves : batch.Moves (resolver.settle none) Catalog.empty _ :=
        ⟨[n], .cons hm .nil, Batch.advance_none rfl⟩
      have hfound : Discovery.foundRoots Catalog.empty [] [n] = [n] := rfl
      have hwave : Discovery.newNames Catalog.empty [n.name]
          ([n].flatMap Manifest.dependencyNames) = [] := by
        simp [hdependencies, Discovery.newNames]
      have hload := (hloads resolver none hmisses).1 ["app"] failure hfails
      have hend := (hmoments ⟨resolver, none, batch⟩ (by simp [m])).2 _ _ hmoves hwave rfl
      exact ⟨hreached, hmisses, hfails, hload, _, _, hmoves, hwave, rfl, by simp [hfound, hname], hend⟩

/-- An integer of one digit more than there may be. -/
def longInteger : String :=
  String.ofList (List.replicate (Json.digitLimit + 1) '1')

theorem read_longInteger :
    Json.read longInteger = .error ⟨.tooManyDigits (Json.digitLimit + 1), 1⟩ := by
  have hdigits : ∀ d ∈ List.replicate (Json.digitLimit + 1) '1', Text.isDigit d = true := by
    intro d hd
    rw [List.eq_of_mem_replicate hd]
    rfl
  have hlength : (List.replicate (Json.digitLimit + 1) '1').length = Json.digitLimit + 1 :=
    List.length_replicate
  have hlong := Json.read_long hdigits (by simp [List.head?_replicate])
    (by rw [hlength]; exact Nat.lt_succ_self _)
  rw [hlength] at hlong
  exact hlong

/-- A table whose one document is an integer with too many digits: the load of it fails in none of the
documented ways. -/
theorem long_integer_not_documented :
    let resolver := AnswerTable.resolver [("app", .source (.text longInteger))]
    let failure := Failure.tooManyDigits (.read (Json.digitLimit + 1))
    resolver.OnlyMisses ∧ (empty.loadRoots resolver none ["app"]).2.result = .error failure ∧
      ¬ failure.Documented := by
  intro resolver failure
  have hmisses : resolver.OnlyMisses := AnswerTable.onlyMisses_resolver (by simp)
  have hsettle : resolver.settle none "app" = .error failure := by
    have hanswer : resolver.answer "app" = .source (.text longInteger) := rfl
    have hdecode : Manifest.decode (.text longInteger) =
        .error ⟨none, none, .notJson ⟨.tooManyDigits (Json.digitLimit + 1), 1⟩⟩ :=
      Manifest.decode_of_read_error read_longInteger
    have hbreaks : resolver.BreaksOff none "app" failure := .digits rfl rfl hanswer hdecode rfl
    exact hbreaks.settle_eq
  exact ⟨hmisses, atRest_empty.loadRoots_error none rfl hsettle, by simp [failure]⟩

end TypeSystem
end TypeGraph
