import TypeGraph.Proofs.Registry.Arena
import TypeGraph.Proofs.System.Alike
import TypeGraph.Proofs.System.Chronicle
import TypeGraph.Proofs.System.FailedLoad

/-!
# What a session makes roots

An action of a session goes on with a chronicle, and adds to it what the action has named: the requests
of those of its loads that have succeeded, all of which have begun with the catalog that the action has
found, or the assembly that it has promoted.

**Results.**
* `TypeSystem.AtRest.loadTogether_chronicle`: what loads that are made together add to a chronicle.
* `TypeSystem.AtRest.perform_chronicle`, `TypeSystem.AtRest.performAll_chronicle`: so it is with an
  action, and with a session.
-/

namespace TypeGraph
namespace TypeSystem

/-- An action names an assembly as a root: a load that succeeds asks for an identifier that stands for
its name, or a promotion that succeeds gives its name. -/
def MakesRoot (s : TypeSystem) : Action → String → Prop
  | .load resolver limit identifier, name =>
      (∃ m, (s.load resolver limit identifier).2.result = .ok m) ∧
        RootName (resolver.settle limit) s.catalog identifier name
  | .loadAll resolver limit identifiers, name =>
      (s.loadAll resolver limit identifiers).2.result = .ok () ∧
        ∃ identifier ∈ identifiers, RootName (resolver.settle limit) s.catalog identifier name
  | .loadRoots resolver limit identifiers, name =>
      (∃ found, (s.loadRoots resolver limit identifiers).2.result = .ok found) ∧
        ∃ identifier ∈ identifiers, RootName (resolver.settle limit) s.catalog identifier name
  | .loadTogether resolver limit groups, name =>
      ∃ identifiers found,
        (identifiers, .ok found) ∈ groups.zip (s.loadTogether resolver limit groups).2.result ∧
          ∃ identifier ∈ identifiers, RootName (resolver.settle limit) s.catalog identifier name
  | .promoteRoot given, name => (∃ after, s.promoteRoot given = .ok after) ∧ name = given
  | .ask _, _ => False

section Together

variable (resolver : Resolver) (limit : Option Number)

/-- A group whose batch is still on its way. -/
def underwayOf (began : Catalog) : List String × BatchState → Option Underway
  | (_, .active b) => some ⟨began, resolver, limit, b⟩
  | (_, .ended _) => none

/-- What the batch of a group has named: its request, when it has its assemblies. -/
def namingOf (began : Catalog) : List String × BatchState → Option Naming
  | (identifiers, .ended (.ok _)) => some (.loaded began resolver limit identifiers)
  | (_, .ended (.error _)) => none
  | (_, .active _) => none

theorem mem_filterMap_namingOf
    {began : Catalog}
    {pairs : List (List String × BatchState)}
    {naming : Naming} :
    naming ∈ pairs.filterMap (namingOf resolver limit began) ↔ ∃ identifiers found,
      (identifiers, .ended (.ok found)) ∈ pairs ∧
        naming = .loaded began resolver limit identifiers := by
  rw [List.mem_filterMap]
  constructor
  · rintro ⟨⟨identifiers, _ | _ | found⟩, hmem, he⟩
    · cases he
    · cases he
    · cases he
      exact ⟨identifiers, found, hmem, rfl⟩
  · rintro ⟨identifiers, found, hmem, rfl⟩
    exact ⟨_, hmem, rfl⟩

/-- The groups of a run with the states of their batches: a chronicle has the loads that are still on
their way, and one naming for each group that has its assemblies. -/
structure Told (s : TypeSystem) (namings : List Naming) (groups : List (List String))
    (r : TypeRegistry) (pairs : List (List String × BatchState)) (more : List Naming) : Prop where
  groups_eq : pairs.map Prod.fst = groups
  identifiers_eq : ∀ identifiers b, (identifiers, .active b) ∈ pairs → b.identifiers = identifiers
  chronicle : Chronicle r (pairs.filterMap (underwayOf resolver limit s.catalog)) (namings ++ more)
  named : ∀ naming, naming ∈ more ↔ naming ∈ pairs.filterMap (namingOf resolver limit s.catalog)

/-- The loads of several groups begin one after the other. -/
theorem chronicle_begin
    {r : TypeRegistry}
    {us : List Underway}
    {namings : List Naming}
    (h : Chronicle r us namings)
    (groups : List (List String)) :
    Chronicle r (us ++ groups.map fun identifiers =>
      ⟨r.catalog, resolver, limit, .start r.catalog identifiers⟩) namings := by
  induction groups generalizing us with
  | nil => simpa using h
  | cons identifiers rest ih =>
      have hrest := ih (h.begins resolver limit identifiers)
      rwa [List.append_assoc, List.singleton_append] at hrest

end Together

section Told

variable {resolver : Resolver} {limit : Option Number} {s : TypeSystem} {namings more : List Naming}
  {groups : List (List String)} {r r' : TypeRegistry}
  {first last : List (List String × BatchState)} {identifiers : List String} {b next : Batch}

/-- A batch that goes on has the same request. -/
theorem Told.goesOn
    (h : Told resolver limit s namings groups r (first ++ (identifiers, .active b) :: last) more)
    (ht : Run.Turn (resolver.settle limit) r b r' (.active next)) :
    Told resolver limit s namings groups r' (first ++ (identifiers, .active next) :: last) more := by
  obtain ⟨hgroups, hidentifiers, hchronicle, hnamed⟩ := h
  refine ⟨by simpa using hgroups, fun identifiers' b' hb' => ?_, ?_, fun naming => ?_⟩
  · simp only [List.mem_append, List.mem_cons, Prod.mk.injEq, BatchState.active.injEq] at hb'
    rcases hb' with hb' | ⟨rfl, rfl⟩ | hb'
    · exact hidentifiers _ _ (by simp [hb'])
    · obtain ⟨-, hm, -⟩ := ht.active
      rw [hm.keeps.1]
      exact hidentifiers _ _ (by simp)
    · exact hidentifiers _ _ (by simp [hb'])
  · simp only [List.filterMap_append, List.filterMap_cons, underwayOf] at hchronicle ⊢
    exact hchronicle.goesOn ht
  · rw [hnamed]
    simp [namingOf]

/-- A batch that has ended has left the loads that are on their way, and it has named its roots if it has
its assemblies. -/
theorem Told.ends
    {result : Except Failure (List Manifest)}
    (h : Told resolver limit s namings groups r (first ++ (identifiers, .active b) :: last) more)
    (ht : Run.Turn (resolver.settle limit) r b r' (.ended result)) :
    ∃ more', Told resolver limit s namings groups r'
      (first ++ (identifiers, .ended result) :: last) more' := by
  obtain ⟨hgroups, hidentifiers, hchronicle, hnamed⟩ := h
  have hid : b.identifiers = identifiers := hidentifiers _ _ (by simp)
  have hothers : ∀ identifiers' b',
      (identifiers', .active b') ∈ first ++ (identifiers, BatchState.ended result) :: last →
        b'.identifiers = identifiers' := by
    intro identifiers' b' hb'
    refine hidentifiers _ _ ?_
    simp only [List.mem_append, List.mem_cons, Prod.mk.injEq, reduceCtorEq, and_false,
      false_or] at hb' ⊢
    exact hb'.imp_right Or.inr
  simp only [List.filterMap_append, List.filterMap_cons, underwayOf] at hchronicle
  cases result with
  | error failure =>
      refine ⟨more, by simpa using hgroups, hothers, ?_, fun naming => ?_⟩
      · simp only [List.filterMap_append, List.filterMap_cons, underwayOf]
        exact hchronicle.fails ht
      · rw [hnamed]
        simp [namingOf]
  | ok found =>
      refine ⟨more ++ [.loaded s.catalog resolver limit identifiers], by simpa using hgroups, hothers,
        ?_, fun naming => ?_⟩
      · have hnext := hchronicle.loads ht
        rw [List.append_assoc, hid] at hnext
        simp only [List.filterMap_append, List.filterMap_cons, underwayOf]
        exact hnext
      · -- the new naming stands among those of its position, and last in the chronicle
        rw [List.mem_append, hnamed]
        simp only [List.filterMap_append, List.filterMap_cons, namingOf, List.mem_append,
          List.mem_cons]
        tauto

end Told

section Perform

variable (resolver : Resolver) (limit : Option Number) {s : TypeSystem} {namings : List Naming}

/-- The turns of loads that are made together go on with a chronicle. -/
theorem kept_told
    (s : TypeSystem)
    (namings : List Naming)
    (groups : List (List String)) :
    Run.Kept resolver limit fun r _ states => ∃ pairs more,
      pairs.map Prod.snd = states ∧ Told resolver limit s namings groups r pairs more where
  goesOn r ended before b after next _ _ hJ ht := by
    obtain ⟨pairs, more, hstates, htold⟩ := hJ
    obtain ⟨first, rest, rfl, rfl, hrest⟩ := List.map_eq_append_iff.1 hstates
    obtain ⟨⟨identifiers, state⟩, last, rfl, rfl, rfl⟩ := List.map_eq_cons_iff.1 hrest
    exact ⟨_, more, by simp, htold.goesOn ht⟩
  ends r ended before b after r' result _ _ hJ ht := by
    obtain ⟨pairs, more, hstates, htold⟩ := hJ
    obtain ⟨first, rest, rfl, rfl, hrest⟩ := List.map_eq_append_iff.1 hstates
    obtain ⟨⟨identifiers, state⟩, last, rfl, rfl, rfl⟩ := List.map_eq_cons_iff.1 hrest
    obtain ⟨more', hends⟩ := htold.ends ht
    exact ⟨_, more', by simp, hends⟩

/-- Loads that are made together go on with a chronicle, and name what the groups that have their
assemblies have asked for. -/
theorem AtRest.loadTogether_chronicle
    (h : s.AtRest)
    (hs : Chronicle s.registry [] namings)
    (groups : List (List String)) :
    ∃ more, Chronicle (s.loadTogether resolver limit groups).1.registry [] (namings ++ more) ∧
      ∀ naming, naming ∈ more ↔ ∃ identifiers found,
        (identifiers, .ok found) ∈ groups.zip (s.loadTogether resolver limit groups).2.result ∧
          naming = .loaded s.catalog resolver limit identifiers := by
  have hstart : Told resolver limit s namings groups s.registry
      (groups.map fun identifiers => (identifiers, .active (.start s.registry.catalog identifiers)))
      [] := by
    refine ⟨by simp [Function.comp_def], ?_, ?_, by simp [namingOf]⟩
    · intro identifiers b hb
      obtain ⟨identifiers', -, he⟩ := List.mem_map.1 hb
      cases he
      rfl
    · have hbegin := chronicle_begin resolver limit hs groups
      simpa [List.filterMap_map, Function.comp_def, underwayOf, catalog] using hbegin
  obtain ⟨-, hended, pairs, more, hstates, htold⟩ := Loop.complete_induction h.coherent
    (kept_told resolver limit s namings groups) groups
    ⟨_, [], by simp [Function.comp_def], hstart⟩
  have hpairs : pairs = groups.zip (Loop.complete resolver limit s.registry groups).states :=
    List.zip_of_prod htold.groups_eq hstates
  have hnone : pairs.filterMap (underwayOf resolver limit s.catalog) = [] := by
    rw [List.filterMap_eq_nil_iff]
    rintro ⟨identifiers, state⟩ hpair
    obtain ⟨result, rfl⟩ := hended state (hstates ▸ List.mem_map_of_mem hpair)
    rfl
  have hchronicle := htold.chronicle
  rw [hnone] at hchronicle
  unfold TypeSystem.loadTogether
  refine ⟨more, hchronicle, fun naming => ?_⟩
  rw [htold.named, mem_filterMap_namingOf]
  refine exists_congr fun identifiers => exists_congr fun found => and_congr_left fun _ => ?_
  simp only [Loader.results, List.zip_map_right, ← hpairs]
  constructor
  · intro hmem
    exact List.mem_map.2 ⟨_, hmem, rfl⟩
  · intro hmem
    obtain ⟨⟨identifiers', state⟩, hpair, he⟩ := List.mem_map.1 hmem
    obtain ⟨result, rfl⟩ := hended state (hstates ▸ List.mem_map_of_mem hpair)
    cases he
    exact hpair

/-- A load of some roots goes on with a chronicle, and names what it was asked for if it succeeds. -/
theorem AtRest.loadRoots_chronicle
    (h : s.AtRest)
    (hs : Chronicle s.registry [] namings)
    (identifiers : List String) :
    ∃ more, Chronicle (s.loadRoots resolver limit identifiers).1.registry [] (namings ++ more) ∧
      ∀ name, (∃ naming ∈ more, naming.Names name) ↔
        (∃ found, (s.loadRoots resolver limit identifiers).2.result = .ok found) ∧
          ∃ identifier ∈ identifiers, RootName (resolver.settle limit) s.catalog identifier name := by
  obtain ⟨more, hchronicle, hnamed⟩ := h.loadTogether_chronicle resolver limit hs [identifiers]
  have hsingle : ∀ {results : List (Except Failure (List Manifest))} {identifiers' found},
      (identifiers', .ok found) ∈ [identifiers].zip results ↔
        identifiers' = identifiers ∧ results.headD (.error .endlessDependencies) = .ok found := by
    rintro (_ | ⟨result, rest⟩) identifiers' found
    · simp
    · simp [eq_comm]
  refine ⟨more, hchronicle, fun name => ?_⟩
  constructor
  · rintro ⟨naming, hmem, hname⟩
    obtain ⟨identifiers', found, hpair, rfl⟩ := (hnamed naming).1 hmem
    obtain ⟨rfl, hfound⟩ := hsingle.1 hpair
    exact ⟨⟨found, hfound⟩, hname⟩
  · rintro ⟨⟨found, hfound⟩, hname⟩
    exact ⟨_, (hnamed _).2 ⟨identifiers, found, hsingle.2 ⟨rfl, hfound⟩, rfl⟩, hname⟩

end Perform

section Session

variable {s : TypeSystem} {namings : List Naming}

/-- An action goes on with a chronicle, which names what the action makes roots. -/
theorem AtRest.perform_chronicle
    (h : s.AtRest)
    (hs : Chronicle s.registry [] namings)
    (action : Action) :
    ∃ more, Chronicle (s.perform action).1.registry [] (namings ++ more) ∧
      ∀ name, (∃ naming ∈ more, naming.Names name) ↔ s.MakesRoot action name := by
  cases action with
  | load resolver limit identifier =>
      obtain ⟨more, hchronicle, hnamed⟩ := h.loadRoots_chronicle resolver limit hs [identifier]
      refine ⟨more, hchronicle, fun name => ?_⟩
      rw [hnamed, ← h.load_ok_iff resolver limit identifier]
      simp [MakesRoot]
  | loadAll resolver limit identifiers =>
      obtain ⟨more, hchronicle, hnamed⟩ := h.loadRoots_chronicle resolver limit hs identifiers
      refine ⟨more, hchronicle, fun name => ?_⟩
      rw [hnamed, ← loadAll_ok_iff]
      rfl
  | loadRoots resolver limit identifiers => exact h.loadRoots_chronicle resolver limit hs identifiers
  | loadTogether resolver limit groups =>
      obtain ⟨more, hchronicle, hnamed⟩ := h.loadTogether_chronicle resolver limit hs groups
      refine ⟨more, hchronicle, fun name => ?_⟩
      constructor
      · rintro ⟨naming, hmem, hname⟩
        obtain ⟨identifiers, found, hpair, rfl⟩ := (hnamed naming).1 hmem
        exact ⟨identifiers, found, hpair, hname⟩
      · rintro ⟨identifiers, found, hpair, hname⟩
        exact ⟨_, (hnamed _).2 ⟨identifiers, found, hpair, rfl⟩, hname⟩
  | promoteRoot given =>
      simp only [perform, MakesRoot, TypeSystem.promoteRoot]
      cases hp : s.registry.promote given with
      | error failure => exact ⟨[], by simpa using hs, by simp⟩
      | ok registry => exact ⟨[.promoted given], hs.promotes hp, fun name => by simp [Naming.Names]⟩
  | ask inquiry =>
      simp only [perform, MakesRoot, TypeSystem.ask]
      cases hq : inquiry.query s.registry with
      | error failure => exact ⟨[], by simpa using hs, by simp⟩
      | ok found => exact ⟨[], by simpa using hs.asks hq, by simp⟩

/-- A session goes on with a chronicle, which names what its actions make roots. -/
theorem AtRest.performAll_chronicle
    (h : s.AtRest)
    (hs : Chronicle s.registry [] namings)
    (actions : List Action) :
    ∃ more, Chronicle (s.performAll actions).1.registry [] (namings ++ more) ∧
      ∀ name, (∃ naming ∈ more, naming.Names name) ↔
        ∃ earlier action later, actions = earlier ++ action :: later ∧
          (s.performAll earlier).1.MakesRoot action name := by
  induction actions generalizing s namings with
  | nil =>
      refine ⟨[], ?_, by simp⟩
      rw [List.append_nil]
      exact hs
  | cons action rest ih =>
      obtain ⟨first, hfirst, hnamed⟩ := h.perform_chronicle hs action
      obtain ⟨more, hmore, hrest⟩ := ih (perform_atRest h action) hfirst
      rw [List.append_assoc] at hmore
      refine ⟨first ++ more, hmore, fun name => ?_⟩
      simp only [List.mem_append, or_and_right, exists_or, hnamed, hrest]
      constructor
      · rintro (hname | ⟨earlier, later, final, rfl, hname⟩)
        · exact ⟨[], action, rest, rfl, hname⟩
        · exact ⟨action :: earlier, later, final, rfl, hname⟩
      · rintro ⟨earlier, later, final, he, hname⟩
        rcases List.cons_eq_append_iff.1 he with ⟨rfl, hcons⟩ | ⟨earlier', rfl, rfl⟩
        · cases hcons
          exact Or.inl hname
        · exact Or.inr ⟨earlier', later, final, rfl, hname⟩

/-- The roots after a session are the committed assemblies that its actions have made roots. -/
theorem mem_roots_after_iff
    (actions : List Action)
    {m : Manifest} :
    m ∈ (after actions).catalog.roots ↔
      m ∈ (after actions).catalog.assemblies ∧
        ∃ earlier action later, actions = earlier ++ action :: later ∧
          (after earlier).MakesRoot action m.name := by
  have hempty : empty.AtRest := ⟨Catalog.coherent_empty⟩
  obtain ⟨more, hchronicle, hnamed⟩ := hempty.performAll_chronicle .nothing actions
  rw [Catalog.mem_roots_iff]
  refine and_congr_right fun _ => ?_
  exact (hchronicle.recorded.named m.name).trans (hnamed m.name)

end Session

end TypeSystem
end TypeGraph
