import Mathlib
import TypeGraph.Proofs.Loading.Cycles
import TypeGraph.Proofs.Loading.Fetched
import TypeGraph.Proofs.Loading.Loadable
import TypeGraph.Proofs.System.Documented

/-!
# How cycles are reported

A load that has fetched everything looks for a cycle among the dependencies of what it has fetched, and
then for types that inherit from themselves.  The first is found exactly where there is one, and its path
closes at the assembly that is named.  So does the path of interfaces that extend each other.

The path of a class starts at the class whose chain was followed, and this class is named.  It need not
lie on the cycle that its chain leads to; then it does not inherit from itself, and the path does not
close at it.

**Results.**
* `TypeSystem.AtRest.exists_end`: the results of a session are those of loads that come to their ends at
  moments that are reached.
* `TypeSystem.dependency_cycles_reported`: a cycle of dependencies is reported exactly where there is
  one, with a path that closes it.
* `TypeSystem.inheritance_cycles_reported`: what a cycle of inheritance is reported with.
* `TypeSystem.class_off_the_cycle`: a class that is named though it does not inherit from itself.
-/

namespace TypeGraph

namespace Run

section Settle

variable {resolver : Resolver} {limit : Option Number} {r : TypeRegistry} {d : Discovery}

/-- At its end a batch fails exactly when linking does, and leaves the registry as it was. -/
theorem settle_error_iff
    (hd : d.Lawful (resolver.settle limit) r.catalog [])
    (hi : r.catalog.Indexed)
    {failure : Failure} :
    ((settle r d).2 = .error failure ↔ d.link r.catalog = .error failure) ∧
      ((settle r d).2 = .error failure → (settle r d).1 = r) := by
  rcases settle_cases hd hi with ⟨other, hlink, hs⟩ | ⟨batch, after, found, hlink, -, -, hs⟩ <;>
    simp [hlink, hs]

end Settle
end Run

/-- A load has fetched everything that it needs: its wave is answered, and no wave is left. -/
def Pending.HasFetched (p : Pending) (r : TypeRegistry) (d : Discovery) : Prop :=
  ∃ next, p.batch.Moves (p.resolver.settle p.limit) r.catalog next ∧
    next.wave = [] ∧ next.discovery = some d

/-- A load of one root that depends on nothing else has fetched everything when the root is there. -/
theorem Pending.hasFetched_root
    {resolver : Resolver}
    {limit : Option Number}
    {identifier : String}
    {m : Manifest}
    (hm : resolver.settle limit identifier = .ok m)
    (hdeps : ∀ name ∈ m.dependencyNames, name = m.name) :
    ∃ d, Pending.HasFetched ⟨resolver, limit, .start Catalog.empty [identifier]⟩ .empty d := by
  have hanswered : Batch.Answered (resolver.settle limit) [identifier] [m] :=
    .cons hm .nil
  have hwave : Discovery.newNames Catalog.empty [m.name]
      ([m].flatMap Manifest.dependencyNames) = [] := by
    refine List.eq_nil_iff_forall_not_mem.2 fun name hname => ?_
    obtain ⟨hmem, hnew, -⟩ := Discovery.mem_newNames_iff.1 hname
    rw [List.flatMap_singleton] at hmem
    exact hnew (List.mem_singleton.2 (hdeps name hmem))
  exact ⟨_, _, ⟨[m], hanswered, Batch.advance_none rfl⟩, hwave, rfl⟩

/-- A load that ends with a failure has had it as an answer, has found a malformed manifest, or has
fetched everything. -/
theorem Pending.fetched_of_turn
    {p : Pending}
    {r registry : TypeRegistry}
    {failure : Failure}
    (h : p.Turns r registry (.ended (.error failure))) :
    (∃ identifier, p.resolver.settle p.limit identifier = .error failure) ∨
      failure.report.failureClass = .malformed ∨ ∃ d, p.HasFetched r d := by
  rcases h.ended with ⟨other, hf, he⟩ | ⟨next, d, hm, hw, hd, -⟩
  · cases he
    rcases hf.answered_or_malformed with ⟨identifier, -, hans⟩ | hclass
    · exact Or.inl ⟨identifier, hans⟩
    · exact Or.inr (Or.inl hclass)
  · exact Or.inr (Or.inr ⟨d, next, hm, hw, hd⟩)

namespace Moment

/-- A load comes to its end with its next turn. -/
def Ends (s : Moment) (resolver : Resolver) (limit : Option Number)
    (result : Except Failure (List Manifest)) : Prop :=
  ∃ p ∈ s.pending, p.resolver = resolver ∧ p.limit = limit ∧
    ∃ registry, p.Turns s.registry registry (.ended result)

/-- What the loads on their way have found was answered to what they have waited for. -/
theorem Reached.fetched
    {s : Moment}
    (h : s.Reached) :
    ∀ p ∈ s.pending, p.batch.Fetched (p.resolver.settle p.limit) := by
  induction h with
  | refl => exact fun p hp => absurd hp (by simp [start])
  | @tail s s' hs hstep ih =>
      have hlawful := (Reached.orderly hs).lawful
      cases hstep with
      | asks _ => exact ih
      | changes hchange =>
          cases hchange with
          | begins resolver limit identifiers =>
              intro p hp
              rcases List.mem_append.1 hp with hp | hp
              · exact ih p hp
              · rw [List.mem_singleton.1 hp]
                exact Batch.Fetched.start _ _ _
          | @goesOn r r' before after p next ht =>
              obtain ⟨-, hm, -⟩ := ht.active
              intro q hq
              simp only [List.mem_append, List.mem_cons] at hq
              rcases hq with hq | rfl | hq
              · exact ih q (by simp [hq])
              · exact (ih p (by simp)).moves (hlawful p (by simp)) hm
              · exact ih q (by simp [hq])
          | ends _ =>
              refine fun q hq => ih q ?_
              simp only [List.mem_append, List.mem_cons] at hq ⊢
              exact hq.imp_right Or.inr
          | promotes _ => exact ih

section Fetched

variable {s : Moment} (h : s.Reached) {p : Pending} (hp : p ∈ s.pending) {d : Discovery}
  (hd : p.HasFetched s.registry d)
include h hp hd

/-- A load that has fetched everything comes to its end with its turn, and has learned what is lawful. -/
theorem Reached.turns_of_hasFetched :
    d.Lawful (p.resolver.settle p.limit) s.registry.catalog [] ∧
      ∀ registry state, p.Turns s.registry registry state ↔
        registry = (Run.settle s.registry d).1 ∧ state = .ended (Run.settle s.registry d).2 := by
  obtain ⟨next, hm, hw, hnext⟩ := hd
  have hlawful := (hm.lawful (h.orderly.lawful p hp)).learned d hnext
  rw [hw] at hlawful
  exact ⟨hlawful, fun registry state => Run.turn_iff_settle hm hw hnext⟩

/-- What it has fetched and what is not committed was answered to identifiers that it has waited for, and
these are answered with nothing else but what is committed, up to the names. -/
theorem Reached.fresh_of_hasFetched :
    (∀ m ∈ d.fresh s.registry.catalog, s.registry.catalog.hasAssembly m.name = false ∧
      ∃ identifier ∈ p.batch.touched, p.resolver.settle p.limit identifier = .ok m) ∧
    ∀ identifier ∈ p.batch.touched, ∃ m, p.resolver.settle p.limit identifier = .ok m ∧
      (s.registry.catalog.hasAssembly m.name = true ∨
        ∃ n ∈ d.fresh s.registry.catalog, n.name = m.name) := by
  obtain ⟨next, hm, hw, hnext⟩ := hd
  have htouched : next.touched = p.batch.touched := by simp [hm.keeps.2, hw]
  have hfetched := (h.fetched p hp).moves (h.orderly.lawful p hp) hm d hnext
  have hsupplied := ((h.provided p hp).moves hm).touched d hnext
  rw [htouched] at hfetched hsupplied
  refine ⟨fun m hmem => ?_, fun identifier hi => ?_⟩
  · obtain ⟨hfound, hnew⟩ := Discovery.mem_fresh_iff.1 hmem
    exact ⟨hnew, hfetched m hfound⟩
  · obtain ⟨m, hok, hsupplies⟩ := (hsupplied identifier hi).resolve_left (by simp [hw])
    refine ⟨m, hok, ?_⟩
    cases hk : s.registry.catalog.hasAssembly m.name with
    | true => exact Or.inl rfl
    | false =>
        obtain ⟨n, hn, he⟩ := hsupplies.resolve_left (by simp [hk])
        exact Or.inr ⟨n, Discovery.mem_fresh_iff.2 ⟨hn, he ▸ hk⟩, he⟩

/-- When it fails then for a cycle of inheritance, it reports a type of those at hand and a path. -/
theorem Reached.inheritance_of_turn
    {registry : TypeRegistry}
    {failure : Failure}
    (ht : p.Turns s.registry registry (.ended (.error failure)))
    (hf : failure.report.failureClass = .inheritanceCycle) :
    registry = s.registry ∧ ∃ fqn path, failure.TellsInheritance
      (s.registry.catalog.append (d.fresh s.registry.catalog)).Has fqn path := by
  obtain ⟨hlawful, hturns⟩ := h.turns_of_hasFetched hp hd
  have hi := h.orderly.coherent.toIndexed
  obtain ⟨rfl, hstate⟩ := (hturns registry _).1 ht
  have hresult : .error failure = (Run.settle s.registry d).2 := BatchState.ended.inj hstate
  obtain ⟨hlink, hsame⟩ := Run.settle_error_iff hlawful hi
  exact ⟨hsame hresult.symm,
    Discovery.inheritance_of_link hi hlawful.found_nodup (hlink.1 hresult.symm) hf⟩

end Fetched

end Moment

namespace TypeSystem

section Ends

variable (resolver : Resolver) (limit : Option Number)

/-- The batches of a run that have ended are loads that have come to their ends at some moments. -/
theorem kept_ends
    (s : Moment) :
    Run.Kept resolver limit fun r _ states =>
      Relation.ReflTransGen Moment.Step s ⟨r, states.filterMap (pendingOf resolver limit)⟩ ∧
        ∀ result, .ended result ∈ states →
          ∃ s', Relation.ReflTransGen Moment.Step s s' ∧ s'.Ends resolver limit result where
  goesOn r ended before b after next hc hb hJ ht := by
    refine ⟨(kept_steps resolver limit s).goesOn r ended _ _ _ _ hc hb hJ.1 ht, fun result hr => ?_⟩
    exact hJ.2 result (by simpa using hr)
  ends r ended before b after r' result hc hb hJ ht := by
    refine ⟨(kept_steps resolver limit s).ends r ended _ _ _ _ _ hc hb hJ.1 ht, fun other hr => ?_⟩
    simp only [List.mem_append, List.mem_cons, BatchState.ended.injEq] at hr
    rcases hr with hr | rfl | hr
    · exact hJ.2 other (by simp [hr])
    · exact ⟨_, hJ.1, ⟨resolver, limit, b⟩, by simp [pendingOf], rfl, rfl, r', ht⟩
    · exact hJ.2 other (by simp [hr])

/-- The results of loads that are made together are those of loads that come to their ends at moments
that are reached. -/
theorem AtRest.exists_end
    {s : TypeSystem}
    (h : s.AtRest)
    (groups : List (List String)) :
    ∀ result ∈ (s.loadTogether resolver limit groups).2.result,
      ∃ s', Relation.ReflTransGen Moment.Step s.moment s' ∧ s'.Ends resolver limit result := by
  have hbegin := steps_begin resolver limit s.registry [] groups
  have hnone : ∀ result, BatchState.ended result ∉
      groups.map fun identifiers => BatchState.active (.start s.registry.catalog identifiers) := by
    simp
  obtain ⟨-, hended, -, hends⟩ := Loop.complete_induction h.coherent
    (kept_ends resolver limit s.moment) groups
    ⟨by simpa [List.filterMap_map, Function.comp_def, pendingOf, moment] using hbegin,
      fun result hr => absurd hr (hnone result)⟩
  intro result hr
  obtain ⟨state, hstate, rfl⟩ := List.mem_map.1 hr
  obtain ⟨result, rfl⟩ := hended state hstate
  exact hends result hstate

end Ends

/-- The load of some roots comes to its end with exactly what they require, if all of it is answered. -/
theorem AtRest.exists_discovery
    {s : TypeSystem}
    (h : s.AtRest)
    {resolver : Resolver}
    {limit : Option Number}
    {identifiers : List String}
    (hroots : ∀ identifier ∈ identifiers, s.catalog.hasAssembly identifier = false →
      ∃ m, resolver.settle limit identifier = .ok m)
    (hdeps : ∀ n, Required (resolver.settle limit) s.catalog identifiers n →
      ∀ name ∈ n.dependencyNames, s.catalog.hasAssembly name = false →
        rootNamed (resolver.settle limit) s.catalog identifiers name = none →
          ∃ m, resolver.settle limit name = .ok m ∧ m.name = name) :
    ∃ d : Discovery, d.Lawful (resolver.settle limit) s.catalog [] ∧
      (· ∈ d.fresh s.catalog) = Required (resolver.settle limit) s.catalog identifiers ∧
      (s.loadRoots resolver limit identifiers).2.result = (Run.settle s.registry d).2 := by
  obtain ⟨b, hway, hstops⟩ := loadRoots_alone h.coherent resolver limit identifiers
  rcases hstops with ⟨failure, hf, -⟩ | ⟨d, hw, hd, he⟩
  · obtain ⟨next, hm⟩ := hway.moves hroots hdeps
    exact absurd hm hf.not_moves
  · have hlawful := hway.lawful.learned d hd
    have hexact := hway.exact.2.2 d hd
    rw [hw] at hlawful hexact
    refine ⟨d, hlawful, property_ext fun m => ?_, (Prod.mk.inj he).2⟩
    rw [TypeSystem.catalog, hexact.fresh_eq, hexact.mem_found_iff]

/-- A load that has fetched everything fails for a cycle of dependencies exactly when what it has fetched
and what is not committed yet depends on itself, and then it reports a path that closes a cycle at the
assembly it names.  This holds for each load on its way at a moment that is reached, which are all loads
of sessions; where the load of a session is alone, it is said of what its request requires.

What has been fetched are the manifests that were answered to the identifiers that the load has waited
for, unless their names are committed.  Committed assemblies can be left out, because no cycle goes
through them. -/
theorem dependency_cycles_reported :
    (∀ earlier resolver limit groups,
      ∀ result ∈ ((after earlier).loadTogether resolver limit groups).2.result,
        ∃ s : Moment, s.Reached ∧ s.Ends resolver limit result) ∧
    (∀ s : Moment, s.Reached → ∀ p ∈ s.pending, ∀ d, p.HasFetched s.registry d →
      let fresh := d.fresh s.registry.catalog
      ((∀ m ∈ fresh, s.registry.catalog.hasAssembly m.name = false ∧
          ∃ identifier ∈ p.batch.touched, p.resolver.settle p.limit identifier = .ok m) ∧
        ∀ identifier ∈ p.batch.touched, ∃ m, p.resolver.settle p.limit identifier = .ok m ∧
          (s.registry.catalog.hasAssembly m.name = true ∨ ∃ n ∈ fresh, n.name = m.name)) ∧
      (∀ name, Relation.TransGen (Depends (s.registry.catalog.append fresh).Has) name name ↔
        Relation.TransGen (Depends (· ∈ fresh)) name name) ∧
      ∃ registry result,
        (∀ registry' state, p.Turns s.registry registry' state ↔
          registry' = registry ∧ state = .ended result) ∧
        ((∃ failure, result = .error failure ∧ failure.report.failureClass = .dependencyCycle) ↔
          ∃ name, Relation.TransGen (Depends (· ∈ fresh)) name name) ∧
        ∀ failure, result = .error failure → failure.report.failureClass = .dependencyCycle →
          registry = s.registry ∧ ∃ name path, failure.report.assembly = .string name ∧
            failure.report.path = some path ∧ Closes (Depends (· ∈ fresh)) name path) ∧
    ∀ earlier resolver limit identifiers,
      let c := (after earlier).catalog
      let answer := resolver.settle limit
      let result := ((after earlier).loadRoots resolver limit identifiers).2.result
      (∀ identifier ∈ identifiers, c.hasAssembly identifier = false → ∃ m, answer identifier = .ok m) →
      (∀ n, Required answer c identifiers n → ∀ name ∈ n.dependencyNames,
        c.hasAssembly name = false → rootNamed answer c identifiers name = none →
          ∃ m, answer name = .ok m ∧ m.name = name) →
      ((∃ failure, result = .error failure ∧ failure.report.failureClass = .dependencyCycle) ↔
        ∃ name, Relation.TransGen (Depends (Required answer c identifiers)) name name) ∧
      ∀ failure, result = .error failure → failure.report.failureClass = .dependencyCycle →
        ∃ name path, failure.report.assembly = .string name ∧ failure.report.path = some path ∧
          Closes (Depends (Required answer c identifiers)) name path := by
  refine ⟨?_, ?_, ?_⟩
  · intro earlier resolver limit groups result hresult
    obtain ⟨s, hsteps, hends⟩ :=
      (performAll_atRest earlier).exists_end resolver limit groups result hresult
    exact ⟨s, (reached_after earlier).trans hsteps, hends⟩
  · intro s hs p hp d hd fresh
    obtain ⟨hlawful, hturns⟩ := hs.turns_of_hasFetched hp hd
    have hc := hs.orderly.coherent
    have hsettle := @Run.settle_error_iff _ _ _ _ hlawful hc.toIndexed
    refine ⟨hs.fresh_of_hasFetched hp hd, fun name => Discovery.depends_cycle_append_iff hc, _, _,
      hturns, ?_, ?_⟩
    · rw [← Discovery.link_cyclic_iff hlawful.found_nodup]
      exact exists_congr fun failure => and_congr_left fun _ => hsettle.1
    · intro failure hfailure hclass
      refine ⟨hsettle.2 hfailure, ?_⟩
      exact Discovery.closes_of_link hlawful.found_nodup (hsettle.1.1 hfailure) hclass
  · intro earlier resolver limit identifiers c answer result hroots hdeps
    have hrest := performAll_atRest earlier
    obtain ⟨d, hlawful, hfresh, hresult⟩ := hrest.exists_discovery hroots hdeps
    have hsettle := @Run.settle_error_iff _ _ _ _ hlawful hrest.coherent.toIndexed
    simp only [result, hresult]
    rw [← hfresh, ← Discovery.link_cyclic_iff hlawful.found_nodup]
    constructor
    · exact exists_congr fun failure => and_congr_left fun _ => hsettle.1
    · intro failure hfailure hclass
      exact Discovery.closes_of_link hlawful.found_nodup (hsettle.1.1 hfailure) hclass

/-- A table with an assembly that depends on itself. -/
def selfDependent : AnswerTable :=
  [("loop", .source (.value (.object [("name", .string "loop"), ("version", .string "1"),
    ("dependencies", .array [.string "loop"])])))]

/-- Its load fails, with a path that closes at it after one step. -/
theorem dependency_cycles_reported_of_selfDependent :
    let resolver := AnswerTable.resolver selfDependent
    let batch := Batch.start Catalog.empty ["loop"]
    let failure := Failure.dependencyCycle ["loop", "loop"]
    ((after []).loadRoots resolver none ["loop"]).2.result = .error failure ∧
    (∃ name, Relation.TransGen
      (Depends (Required (resolver.settle none) (after []).catalog ["loop"])) name name) ∧
    Moment.Reached ⟨.empty, [⟨resolver, none, batch⟩]⟩ ∧
    ∃ d, Pending.HasFetched ⟨resolver, none, batch⟩ .empty d ∧
      ∃ registry result,
        (∀ registry' state, Pending.Turns ⟨resolver, none, batch⟩ .empty registry' state ↔
          registry' = registry ∧ state = .ended result) ∧
        ((∃ failure, result = .error failure ∧ failure.report.failureClass = .dependencyCycle) ↔
          ∃ name, Relation.TransGen (Depends (· ∈ d.fresh Catalog.empty)) name name) := by
  intro resolver batch failure
  obtain ⟨-, hmoments, halone⟩ := dependency_cycles_reported
  have hreached : Moment.Reached ⟨.empty, [⟨resolver, none, batch⟩]⟩ :=
    .single (.changes (@Moment.Change.begins .empty [] resolver none ["loop"]))
  have hfails : ((after []).loadRoots resolver none ["loop"]).2.result = .error failure := by
    unfold resolver failure
    cbv
  have hloop : (resolver.settle none "loop").map (fun m => (m.name, m.dependencyNames)) =
      .ok ("loop", ["loop"]) := by
    unfold resolver
    cbv
  cases hm : resolver.settle none "loop" with
  | error other =>
      rw [hm] at hloop
      cases hloop
  | ok m =>
      rw [hm] at hloop
      obtain ⟨hname, hdependencies⟩ := Prod.mk.inj (Except.ok.inj hloop)
      have hroot : rootNamed (resolver.settle none) (after []).catalog ["loop"] "loop" = some m := by
        simp [rootNamed, answerNamed, hm, hname, after, performAll, empty, TypeSystem.catalog,
          Registry.empty, Catalog.hasAssembly, Catalog.empty]
      obtain ⟨d, hfetched⟩ := Pending.hasFetched_root hm (by simp [hname, hdependencies])
      obtain ⟨-, -, registry, result, hturn, hiff, -⟩ :=
        hmoments _ hreached ⟨resolver, none, batch⟩ (by simp) _ hfetched
      refine ⟨hfails, ?_, hreached, _, hfetched, registry, result, hturn, hiff⟩
      refine ((halone [] resolver none ["loop"] ?_ ?_).1.1 ⟨failure, hfails, rfl⟩)
      · intro identifier hi _
        exact ⟨m, by rw [List.mem_singleton.1 hi, hm]⟩
      · -- whatever the root requires is the root itself, whose name is that of a root
        intro n hn
        have hall : n = m := by
          induction hn with
          | @root n hnew =>
              have hnamed := hnew.2
              have hname' : n.name = "loop" := by
                by_contra hother
                simp [rootNamed, answerNamed, hm, hname, Ne.symm hother] at hnamed
              rw [hname', hroot] at hnamed
              exact (Option.some.inj hnamed).symm
          | @dependency n n' _ hdep _ hnone _ ih =>
              rw [ih, hdependencies, List.mem_singleton] at hdep
              rw [hdep, hroot] at hnone
              cases hnone
        rw [hall, hdependencies]
        intro name hi _ hnone
        rw [List.mem_singleton.1 hi, hroot] at hnone
        cases hnone

/-- A load that fails for a cycle of inheritance, though its resolver has not reported one, has fetched
everything and names a type of those at hand.  For interfaces the path that it reports closes a cycle of
listed interfaces at the type that is named.  For classes the path leads along declared bases from the
class that is named to the first one that it meets again; it closes a cycle at the class that is named
exactly when this class inherits from itself. -/
theorem inheritance_cycles_reported
    (earlier : List Action)
    (resolver : Resolver)
    (limit : Option Number)
    (groups : List (List String)) :
    (∀ identifiers, ((after earlier).loadRoots resolver limit identifiers).2.result ∈
      ((after earlier).loadTogether resolver limit [identifiers]).2.result) ∧
    (∀ failure, .error failure ∈ ((after earlier).loadTogether resolver limit groups).2.result →
      failure.report.failureClass = .inheritanceCycle →
      (¬ resolver.OnlyMisses ∧ ∃ identifier, resolver.settle limit identifier = .error failure) ∨
        ∃ s : Moment, s.Reached ∧ ∃ p ∈ s.pending, p.resolver = resolver ∧ p.limit = limit ∧
          ∃ d, p.HasFetched s.registry d ∧ ∃ fqn path, failure.TellsInheritance
            (s.registry.catalog.append (d.fresh s.registry.catalog)).Has fqn path) ∧
    ∀ s : Moment, s.Reached → ∀ p ∈ s.pending, ∀ d, p.HasFetched s.registry d →
      ∀ registry failure, p.Turns s.registry registry (.ended (.error failure)) →
        failure.report.failureClass = .inheritanceCycle →
        registry = s.registry ∧ ∃ fqn path, failure.TellsInheritance
          (s.registry.catalog.append (d.fresh s.registry.catalog)).Has fqn path := by
  refine ⟨?_, ?_, ?_⟩
  · intro identifiers
    rw [(performAll_atRest earlier).loadTogether_singleton limit identifiers]
    exact List.mem_singleton.2 rfl
  · intro failure hfailure hclass
    obtain ⟨s, hsteps, p, hp, rfl, rfl, registry, hturn⟩ :=
      (performAll_atRest earlier).exists_end resolver limit groups _ hfailure
    have hs : s.Reached := (reached_after earlier).trans hsteps
    rcases Pending.fetched_of_turn hturn with ⟨identifier, hans⟩ | hmalformed | ⟨d, hd⟩
    · refine Or.inl ⟨fun hmisses => ?_, identifier, hans⟩
      rcases hmisses.class_of_settle hans with ⟨hother, -⟩ | hother | hbreaks
      · rw [hother] at hclass
        cases hclass
      · rw [hother] at hclass
        cases hclass
      · refine absurd ?_ hbreaks.not_documented
        rw [Failure.Documented, hclass]
        decide
    · rw [hmalformed] at hclass
      cases hclass
    · exact Or.inr ⟨s, hs, p, hp, rfl, rfl, d, hd, (hs.inheritance_of_turn hp hd hturn hclass).2⟩
  · intro s hs p hp d hd registry failure hturn hclass
    exact hs.inheritance_of_turn hp hd hturn hclass

/-- A table with a library of one document for each of its types. -/
def libraryOf (types : List (String × Json)) : AnswerTable :=
  [("lib", .source (.value (.object [("name", .string "lib"), ("version", .string "1"),
    ("types", .object types)])))]

/-- Two interfaces of a library that extend each other. -/
def mutualInterfaces : AnswerTable :=
  libraryOf [("lib.I", .object [("kind", .string "interface"),
      ("interfaces", .array [.string "lib.J"])]),
    ("lib.J", .object [("kind", .string "interface"), ("interfaces", .array [.string "lib.I"])])]

/-- Its load fails, with a path that closes at the interface that is named. -/
theorem inheritance_cycles_reported_of_mutualInterfaces :
    let resolver := AnswerTable.resolver mutualInterfaces
    let batch := Batch.start Catalog.empty ["lib"]
    let failure := Failure.interfaceCycle "lib" "lib.I" ["lib.I", "lib.J", "lib.I"]
    .error failure ∈ ((after []).loadTogether resolver none [["lib"]]).2.result ∧
    Moment.Reached ⟨.empty, [⟨resolver, none, batch⟩]⟩ ∧
    ∃ d, Pending.HasFetched ⟨resolver, none, batch⟩ .empty d ∧
      Pending.Turns ⟨resolver, none, batch⟩ .empty .empty (.ended (.error failure)) ∧
      ∃ fqn path, failure.TellsInheritance
        (Catalog.empty.append (d.fresh Catalog.empty)).Has fqn path := by
  intro resolver batch failure
  obtain ⟨-, -, hmoments⟩ := inheritance_cycles_reported [] resolver none [["lib"]]
  have hreached : Moment.Reached ⟨.empty, [⟨resolver, none, batch⟩]⟩ :=
    .single (.changes (@Moment.Change.begins .empty [] resolver none ["lib"]))
  have hfails : .error failure ∈ ((after []).loadTogether resolver none [["lib"]]).2.result := by
    have hresults : ((after []).loadTogether resolver none [["lib"]]).2.result =
        [.error failure] := by
      unfold resolver failure
      cbv
    simp [hresults]
  have hlib : (resolver.settle none "lib").map
      (fun m => (m.dependencyNames, Run.proceed .empty batch [m])) =
        .ok ([], .empty, .ended (.error failure)) := by
    unfold resolver batch failure
    cbv
  cases hm : resolver.settle none "lib" with
  | error other =>
      rw [hm] at hlib
      cases hlib
  | ok m =>
      rw [hm] at hlib
      obtain ⟨hdependencies, hproceed⟩ := Prod.mk.inj (Except.ok.inj hlib)
      have hturn : Pending.Turns ⟨resolver, none, batch⟩ .empty .empty (.ended (.error failure)) := by
        have hproceeds : Run.Turn (resolver.settle none) .empty batch _ _ :=
          .proceeds (.cons hm .nil)
        rwa [hproceed] at hproceeds
      obtain ⟨d, hfetched⟩ := Pending.hasFetched_root hm (by simp [hdependencies])
      have htells := (hmoments _ hreached ⟨resolver, none, batch⟩ (by simp) _ hfetched _ _ hturn rfl).2
      exact ⟨hfails, hreached, _, hfetched, hturn, htells⟩

/-- A library with a class whose base is on a cycle of bases, on which the class itself is not. -/
def classBelowCycle : AnswerTable :=
  libraryOf [("lib.A", .object [("kind", .string "class"), ("base", .string "lib.B")]),
    ("lib.B", .object [("kind", .string "class"), ("base", .string "lib.C")]),
    ("lib.C", .object [("kind", .string "class"), ("base", .string "lib.B")])]

/-- Its load fails with a report that the class inherits from itself.  The path of the report does not
end at the class, whatever relation it is taken to be a path of. -/
theorem class_off_the_cycle :
    let resolver := AnswerTable.resolver classBelowCycle
    ∃ failure, ((after []).loadRoots resolver none ["lib"]).2.result = .error failure ∧
      failure.report.failureClass = .inheritanceCycle ∧
      failure.message = "class 'lib.A' inherits from itself" ∧
      failure.report.fqn = .string "lib.A" ∧
      failure.report.path = some ["lib.A", "lib.B", "lib.C", "lib.B"] ∧
      ¬ ∃ (r : String → String → Prop) (fqn : String) (path : List String),
        failure.report.fqn = .string fqn ∧ failure.report.path = some path ∧ Closes r fqn path := by
  intro resolver
  refine ⟨.classCycle "lib" "lib.A" ["lib.A", "lib.B", "lib.C", "lib.B"], ?_, rfl, rfl, rfl, rfl, ?_⟩
  · unfold resolver
    cbv
  · rintro ⟨r, fqn, path, hfqn, hpath, hcloses⟩
    cases hfqn
    cases hpath
    have hlast := hcloses.last
    simp at hlast

end TypeSystem
end TypeGraph
