import Mathlib
import TypeGraph.Proofs.Loading.Fetched
import TypeGraph.Proofs.Loading.Loadable
import TypeGraph.Proofs.System.Naming
import TypeGraph.Proofs.System.Together

/-!
# Why an assembly is committed

An assembly is committed because it is a root, or because a path of dependencies leads to it from one.
Where a load runs alone the manifests on this path are committed with it.  Where several loads run
together one of them may follow a manifest whose name another one commits with another manifest; then
the dependencies of the manifest that was followed are committed all the same, and what leads to them is
not committed at all.

**Results.**
* `Required.exists_path`: a load alone commits what its roots lead to.
* `Chronicle.turn_reasons`: what a load commits is reached through what is committed or displaced.
* `TypeSystem.committed_for_a_reason`: after any session every committed assembly is reached from a root,
  through what is committed or was displaced by loads that were made together.
* `TypeSystem.committed_without_a_reason`: an assembly that nothing committed leads to.
-/

namespace TypeGraph

/-- Every committed assembly is reached from a root, through the dependencies of manifests that are
committed or are among some others. -/
def Catalog.Reasoned (c : Catalog) (others : Manifest → Prop) : Prop :=
  ∀ m ∈ c.assemblies, ∃ root ∈ c.rootNames,
    Relation.ReflTransGen (Depends fun n => c.Has n ∨ others n) root m.name

section Reasoned

variable {c : Catalog} {others more : Manifest → Prop}

theorem Catalog.reasoned_empty
    (others : Manifest → Prop) :
    Catalog.empty.Reasoned others := by
  intro m hm
  simp [Catalog.empty] at hm

theorem Catalog.Reasoned.mono
    (h : c.Reasoned others)
    (hm : ∀ n, others n → more n) :
    c.Reasoned more := by
  intro m hmem
  obtain ⟨root, hroot, hpath⟩ := h m hmem
  exact ⟨root, hroot, Depends.path_mono (fun n hn => hn.imp_right (hm n)) hpath⟩

/-- Other names of roots, as long as none is left out, change nothing. -/
theorem Catalog.Reasoned.withRoots
    (h : c.Reasoned others)
    {rootNames : List String}
    (hr : ∀ name ∈ c.rootNames, name ∈ rootNames) :
    Catalog.Reasoned { c with rootNames := rootNames } others := by
  intro m hm
  obtain ⟨root, hroot, hpath⟩ := h m hm
  exact ⟨root, hr root hroot, hpath⟩

/-- A publication keeps the reasons there are, and needs some for its batch alone. -/
theorem Registry.Published.reasoned
    {r after : TypeRegistry}
    {batch : List Manifest}
    {roots : List String}
    (h : r.Published after batch roots)
    (hr : r.catalog.Reasoned others)
    (hb : ∀ m ∈ batch, ∃ root ∈ roots,
      Relation.ReflTransGen (Depends fun n => after.catalog.Has n ∨ others n) root m.name) :
    after.catalog.Reasoned others := by
  have hroots : ∀ name, name ∈ r.catalog.rootNames ∨ name ∈ roots → name ∈ after.catalog.rootNames := by
    obtain ⟨rootNames, rfl, hnames⟩ := h
    exact fun name => (hnames name).2
  intro m hm
  rcases h.has_iff.1 hm with hm | hm
  · obtain ⟨root, hroot, hpath⟩ := hr m hm
    refine ⟨root, hroots root (Or.inl hroot), Depends.path_mono (fun n hn => ?_) hpath⟩
    exact hn.imp_left fun hold => h.has_iff.2 (Or.inl hold)
  · obtain ⟨root, hroot, hpath⟩ := hb m hm
    exact ⟨root, hroots root (Or.inr hroot), hpath⟩

/-- In a coherent catalog the paths start at committed roots. -/
theorem Catalog.Reasoned.exists_root
    (h : c.Reasoned fun _ => False)
    (hc : c.Coherent)
    {m : Manifest}
    (hm : m ∈ c.assemblies) :
    ∃ root ∈ c.roots, Relation.ReflTransGen (Depends c.Has) root.name m.name := by
  obtain ⟨name, hname, hpath⟩ := h m hm
  obtain ⟨root, hroot, rfl⟩ := Catalog.hasAssembly_iff.1 (hc.roots name hname)
  refine ⟨root, Catalog.mem_roots_iff.2 ⟨hroot, hname⟩, ?_⟩
  simpa using hpath

end Reasoned

section Alone

variable {resolver : Resolver} {limit : Option Number}

/-- What a request requires is reached from one of its roots, through what it requires. -/
theorem Required.exists_path
    {answer : String → Except Failure Manifest}
    {c : Catalog}
    {identifiers : List String}
    {m : Manifest}
    (h : Required answer c identifiers m) :
    ∃ identifier ∈ identifiers, ∃ root, RootName answer c identifier root ∧
      Relation.ReflTransGen (Depends (Required answer c identifiers)) root m.name := by
  induction h with
  | @root m hnew =>
      obtain ⟨identifier, hi, hsome⟩ := List.exists_of_findSome?_eq_some hnew.2
      cases hc : c.hasAssembly identifier with
      | true => simp [hc] at hsome
      | false =>
          rw [hc, if_neg (by simp), answerNamed] at hsome
          cases hans : answer identifier with
          | error failure => simp [hans] at hsome
          | ok n =>
              obtain ⟨-, rfl⟩ : n.name = m.name ∧ n = m := by simpa [hans] using hsome
              exact ⟨identifier, hi, n.name, Or.inr ⟨hc, n, hans, rfl⟩, .refl⟩
  | @dependency n m hn hdep _ _ _ ih =>
      obtain ⟨identifier, hi, root, hroot, hpath⟩ := ih
      exact ⟨identifier, hi, root, hroot, hpath.tail ⟨n, hn, rfl, hdep⟩⟩

/-- A load alone keeps the reasons there are, and needs no manifest that is not committed for its own. -/
theorem Alone.reasoned
    {r after : TypeRegistry}
    {identifiers : List String}
    {result : Except Failure (List Manifest)}
    {others : Manifest → Prop}
    (hc : r.catalog.Coherent)
    (h : Alone resolver limit r identifiers (after, result))
    (hr : r.catalog.Reasoned others) :
    after.catalog.Reasoned others := by
  cases result with
  | error failure =>
      rcases h.outcome hc with
        ⟨other, -, rfl⟩ | ⟨b, d, batch, found, -, -, -, -, -, -, hok⟩
      · exact hr
      · cases hok
  | ok found =>
      obtain ⟨batch, hmem, -, -, hpub, hnamed, -⟩ := h.published hc
      refine hpub.reasoned hr fun m hm => ?_
      obtain ⟨identifier, hi, root, hroot, hpath⟩ := ((hmem m).1 hm).exists_path
      refine ⟨root, (mem_rootNames_iff hnamed).2 ⟨identifier, hi, hroot⟩,
        Depends.path_mono (fun n hn => ?_) hpath⟩
      exact Or.inl (hpub.has_iff.2 (Or.inr ((hmem n).2 hn)))

end Alone

/-- A load on its way has begun with what is committed still, and has paths to the names that it asks
for. -/
def Underway.Led (u : Underway) (c : Catalog) : Prop :=
  u.began.Within c ∧ u.load.batch.Led (u.load.resolver.settle u.load.limit) u.began c

theorem Underway.Led.mono
    {u : Underway}
    {c c' : Catalog}
    (h : u.Led c)
    (hw : c.Within c') :
    u.Led c' :=
  ⟨fun name hname => hw name (h.1 name hname), h.2.mono hw⟩

section Chronicle

variable {r : TypeRegistry} {us : List Underway} {namings : List Naming}

/-- The end of a load leaves the paths of the others. -/
theorem Chronicle.led_others
    {r' : TypeRegistry}
    {before after : List Underway}
    {u : Underway}
    {result : Except Failure (List Manifest)}
    (h : Chronicle r (before ++ u :: after) namings)
    (hled : ∀ v ∈ before ++ u :: after, v.Led r.catalog)
    (hturn : u.load.Turns r r' (.ended result)) :
    ∀ v ∈ before ++ after, v.Led r'.catalog := by
  have horderly := h.reached.orderly
  obtain ⟨-, -, hgrows⟩ :=
    Moment.turn_ended horderly.coherent (horderly.lawful u.load (by simp)) hturn
  have hsub : (before ++ after).Sublist (before ++ u :: after) :=
    (List.sublist_cons_self u after).append_left before
  exact fun v hv => (hled v (hsub.subset hv)).mono hgrows

/-- The loads on their way in a chronicle have paths to the names that they ask for. -/
theorem Chronicle.led
    (h : Chronicle r us namings) :
    ∀ u ∈ us, u.Led r.catalog := by
  induction h with
  | nothing => simp
  | begins resolver limit identifiers _ ih =>
      intro u hu
      rcases List.mem_append.1 hu with hu | hu
      · exact ih u hu
      · rw [List.mem_singleton.1 hu]
        exact ⟨fun _ hname => hname, Batch.Led.start _ _ _ _⟩
  | @goesOn r r' before after u next namings hbefore hturn ih =>
      obtain ⟨rfl, hm, -⟩ := hturn.active
      have hlawful := hbefore.reached.orderly.lawful u.load (by simp)
      have hbegan := hbefore.recorded.begun u (by simp)
      intro v hv
      simp only [List.mem_append, List.mem_cons] at hv
      rcases hv with hv | rfl | hv
      · exact ih v (by simp [hv])
      · obtain ⟨hw, hled⟩ := ih u (by simp)
        exact ⟨hw, hled.moves hw hlawful hbegan hm⟩
      · exact ih v (by simp [hv])
  | fails hbefore hturn ih => exact hbefore.led_others ih hturn
  | loads hbefore hturn ih => exact hbefore.led_others ih hturn
  | promotes hbefore hpromote ih =>
      obtain ⟨-, -, hgrows⟩ :=
        Moment.promote_coherent hbefore.reached.orderly.coherent hpromote
      exact fun u hu => (ih u hu).mono hgrows
  | asks _ hquery ih =>
      obtain ⟨hcatalog, -⟩ := Inquiry.steady_query _ _ _ _ hquery
      rw [hcatalog]
      exact ih

/-- What a load commits, at whatever moment it comes to its end, is reached from its roots through what is
committed then or has been displaced. -/
theorem Chronicle.turn_reasons
    {r' : TypeRegistry}
    {before after : List Underway}
    {u : Underway}
    {found : List Manifest}
    (h : Chronicle r (before ++ u :: after) namings)
    (hturn : u.load.Turns r r' (.ended (.ok found))) :
    ∃ batch, r.Published r' batch (found.map Manifest.name) ∧
      ∀ m ∈ batch, ∃ root ∈ found.map Manifest.name, Relation.ReflTransGen (Depends fun n =>
        r'.catalog.Has n ∨ Displaced (u.load.resolver.settle u.load.limit) u.load.batch.touched
          u.began r.catalog n) root m.name := by
  have horderly := h.reached.orderly
  obtain ⟨hw, hled⟩ := h.led u (by simp)
  exact Run.turn_reasons horderly.coherent hw (horderly.lawful u.load (by simp))
    (h.recorded.begun u (by simp)) hled hturn

end Chronicle

/-- Of two manifests of one name that was not committed before, and with which the identifiers of a load
are answered, the other one has been committed. -/
structure Rival (answer : String → Except Failure Manifest) (began c : Catalog) (n : Manifest) :
    Prop where
  new : began.hasAssembly n.name = false
  manifests : ∃ identifier other m, answer identifier = .ok n ∧ answer other = .ok m ∧
    m.name = n.name ∧ m ≠ n ∧ c.Has m

theorem Rival.mono
    {answer : String → Except Failure Manifest}
    {began c c' : Catalog}
    {n : Manifest}
    (h : Rival answer began c n)
    (hc : ∀ m, c.Has m → c'.Has m) :
    Rival answer began c' n := by
  obtain ⟨hnew, identifier, other, m, hn, hm, hname, hne, hhas⟩ := h
  exact ⟨hnew, identifier, other, m, hn, hm, hname, hne, hc m hhas⟩

namespace TypeSystem

/-- An action displaces a manifest: it loads two groups or more together, its resolver has two manifests
of a name, and the other one is committed. -/
def Displaces (s : TypeSystem) : Action → Manifest → Prop
  | .loadTogether resolver limit groups, n =>
      2 ≤ groups.length ∧ Rival (resolver.settle limit) s.catalog
        (s.loadTogether resolver limit groups).1.catalog n
  | _, _ => False

/-- What holds of the groups of a run that has begun with a type system: what they have committed was
answered, and has its reasons. -/
structure Reasoning (resolver : Resolver) (limit : Option Number) (s : TypeSystem)
    (others : Manifest → Prop) (r : TypeRegistry) (states : List BatchState) : Prop where
  began : ∀ b, .active b ∈ states → b.Began (resolver.settle limit) s.catalog
  led : ∀ b, .active b ∈ states → b.Led (resolver.settle limit) s.catalog r.catalog
  within : s.catalog.Within r.catalog
  answered : ∀ m ∈ r.catalog.assemblies, s.catalog.Has m ∨
    ∃ identifier, resolver.settle limit identifier = .ok m
  reasoned : r.catalog.Reasoned fun n => others n ∨
    Rival (resolver.settle limit) s.catalog r.catalog n

section Together

variable {s : TypeSystem} {others : Manifest → Prop} {resolver : Resolver} {limit : Option Number}
  {r : TypeRegistry} {states : List BatchState}

/-- A manifest that is displaced has a rival that was answered too. -/
theorem Reasoning.rival
    (h : Reasoning resolver limit s others r states)
    {touched : List String}
    {n : Manifest}
    (hn : Displaced (resolver.settle limit) touched s.catalog r.catalog n) :
    Rival (resolver.settle limit) s.catalog r.catalog n := by
  obtain ⟨identifier, -, hans⟩ := hn.answered
  obtain ⟨m, hm, hname, hne⟩ := hn.other
  refine ⟨hn.new, ?_⟩
  rcases h.answered m hm with hold | ⟨other, hother⟩
  · have hknown : s.catalog.hasAssembly n.name = true :=
      Catalog.hasAssembly_iff.2 ⟨m, hold, hname⟩
    rw [hn.new] at hknown
    cases hknown
  · exact ⟨identifier, other, m, hans, hother, hname, hne, hm⟩

/-- Turns keep the reasons of a run. -/
theorem kept_reasoning
    (resolver : Resolver)
    (limit : Option Number)
    (s : TypeSystem)
    (others : Manifest → Prop) :
    Run.Kept resolver limit fun r _ states => Reasoning resolver limit s others r states where
  goesOn r ended before b after next hc hb h ht := by
    obtain ⟨-, hm, -⟩ := ht.active
    have hbegan := h.began b (by simp)
    refine ⟨fun b' hb' => ?_, fun b' hb' => ?_, h.within, h.answered, h.reasoned⟩
    · rcases Run.active_of_turned (.active b) hb' with he | hold
      · cases he
        exact hbegan.moves hm
      · exact h.began b' hold
    · rcases Run.active_of_turned (.active b) hb' with he | hold
      · cases he
        exact (h.led b (by simp)).moves h.within hb hbegan hm
      · exact h.led b' hold
  ends r ended before b after r' result hc hb h ht := by
    have hbegan := h.began b (by simp)
    have hothers : ∀ b', .active b' ∈ before ++ .ended result :: after →
        .active b' ∈ before ++ .active b :: after := by
      intro b' hb'
      rcases Run.active_of_turned (.active b) hb' with he | hold
      · cases he
      · exact hold
    rcases Run.turn_outcome hc hb hbegan ht with
      ⟨failure, rfl, rfl⟩ | ⟨batch, found, rfl, hpub, hanswered, -⟩
    · exact ⟨fun b' hb' => h.began b' (hothers b' hb'), fun b' hb' => h.led b' (hothers b' hb'),
        h.within, h.answered, h.reasoned⟩
    · obtain ⟨batch', hpub', hpaths⟩ :=
        Run.turn_reasons hc h.within hb hbegan (h.led b (by simp)) ht
      have hmore : ∀ m, r.catalog.Has m → r'.catalog.Has m :=
        fun m hm => hpub.has_iff.2 (Or.inl hm)
      refine ⟨fun b' hb' => h.began b' (hothers b' hb'),
        fun b' hb' => (h.led b' (hothers b' hb')).mono hpub.within,
        fun name hname => hpub.within name (h.within name hname), fun m hm => ?_, ?_⟩
      · exact (hpub.has_iff.1 hm).elim (h.answered m) fun hm => Or.inr (hanswered m hm)
      · refine hpub'.reasoned (h.reasoned.mono fun n hn => hn.imp_right fun hr => hr.mono hmore) ?_
        intro m hm
        obtain ⟨root, hroot, hpath⟩ := hpaths m hm
        refine ⟨root, hroot, Depends.path_mono (fun n hn => ?_) hpath⟩
        exact hn.imp_right fun hdisplaced => Or.inr ((h.rival hdisplaced).mono hmore)

/-- Loads that are made together keep the reasons there are, and have some for what they commit. -/
theorem AtRest.loadTogether_reasoned
    (h : s.AtRest)
    (hs : s.catalog.Reasoned others)
    (groups : List (List String)) :
    (s.loadTogether resolver limit groups).1.catalog.Reasoned fun n => others n ∨
      Rival (resolver.settle limit) s.catalog
        (s.loadTogether resolver limit groups).1.catalog n := by
  have hstart : Reasoning resolver limit s others s.registry
      (groups.map fun identifiers => .active (.start s.registry.catalog identifiers)) := by
    refine ⟨fun b hb => ?_, fun b hb => ?_, fun _ hname => hname, fun m hm => Or.inl hm,
      hs.mono fun _ => Or.inl⟩
    · obtain ⟨identifiers, -, he⟩ := List.mem_map.1 hb
      cases he
      exact Batch.Began.start _ _ _
    · obtain ⟨identifiers, -, he⟩ := List.mem_map.1 hb
      cases he
      exact Batch.Led.start _ _ _ _
  obtain ⟨-, -, hend⟩ := Loop.complete_induction h.coherent
    (kept_reasoning resolver limit s others) groups hstart
  exact hend.reasoned

/-- The load of some roots keeps the reasons there are, and needs no others. -/
theorem AtRest.loadRoots_reasoned
    (h : s.AtRest)
    (hs : s.catalog.Reasoned others)
    (identifiers : List String) :
    (s.loadRoots resolver limit identifiers).1.catalog.Reasoned others :=
  (loadRoots_alone h.coherent resolver limit identifiers).reasoned h.coherent hs

/-- Loading no groups commits nothing. -/
theorem AtRest.loadTogether_nil
    (h : s.AtRest)
    (resolver : Resolver)
    (limit : Option Number) :
    (s.loadTogether resolver limit []).1.catalog = s.catalog := by
  have hkept : Run.Kept resolver limit fun r _ states => states = [] ∧ r = s.registry := by
    constructor
    · rintro r ended before b after next - - ⟨hnil, -⟩
      simp at hnil
    · rintro r ended before b after r' result - - ⟨hnil, -⟩
      simp at hnil
  obtain ⟨-, -, -, hsame⟩ := Loop.complete_induction h.coherent hkept [] ⟨rfl, rfl⟩
  exact congrArg Registry.catalog hsame

end Together

section Session

variable {s : TypeSystem} {others : Manifest → Prop}

/-- An action keeps the reasons there are, up to the manifests that it displaces. -/
theorem AtRest.perform_reasoned
    (h : s.AtRest)
    (hs : s.catalog.Reasoned others)
    (action : Action) :
    (s.perform action).1.catalog.Reasoned fun n => others n ∨ s.Displaces action n := by
  cases action with
  | load resolver limit identifier =>
      exact (h.loadRoots_reasoned hs [identifier]).mono fun _ => Or.inl
  | loadAll resolver limit identifiers =>
      exact (h.loadRoots_reasoned hs identifiers).mono fun _ => Or.inl
  | loadRoots resolver limit identifiers =>
      exact (h.loadRoots_reasoned hs identifiers).mono fun _ => Or.inl
  | loadTogether resolver limit groups =>
      rcases groups with _ | ⟨first, _ | ⟨second, rest⟩⟩
      · have hnil := h.loadTogether_nil resolver limit
        simp only [perform, hnil]
        exact hs.mono fun _ => Or.inl
      · exact (h.loadRoots_reasoned hs first).mono fun _ => Or.inl
      · exact (h.loadTogether_reasoned hs _).mono fun n hn => hn.imp_right fun hr => ⟨by simp, hr⟩
  | promoteRoot name =>
      simp only [perform, TypeSystem.promoteRoot]
      cases hp : s.registry.promote name with
      | error failure => exact hs.mono fun _ => Or.inl
      | ok registry =>
          obtain ⟨-, rootNames, rfl, hmem⟩ := Registry.promote_withRoots hp
          refine Catalog.Reasoned.mono ?_ fun _ => Or.inl
          exact hs.withRoots fun n hn => (hmem n).2 (Or.inl hn)
  | ask inquiry =>
      simp only [perform, TypeSystem.ask]
      cases hq : inquiry.query s.registry with
      | error failure => exact hs.mono fun _ => Or.inl
      | ok found =>
          obtain ⟨hcatalog, -⟩ := inquiry.steady_query _ _ _ hq
          rw [TypeSystem.catalog, hcatalog]
          exact hs.mono fun _ => Or.inl

/-- So does a session. -/
theorem AtRest.performAll_reasoned
    (h : s.AtRest)
    (hs : s.catalog.Reasoned others)
    (actions : List Action) :
    (s.performAll actions).1.catalog.Reasoned fun n => others n ∨
      ∃ earlier action later, actions = earlier ++ action :: later ∧
        (s.performAll earlier).1.Displaces action n := by
  induction actions generalizing s others with
  | nil => exact hs.mono fun _ => Or.inl
  | cons action rest ih =>
      refine (ih (perform_atRest h action) (h.perform_reasoned hs action)).mono fun n hn => ?_
      rcases hn with (hold | hfirst) | ⟨earlier, next, later, rfl, hlater⟩
      · exact Or.inl hold
      · exact Or.inr ⟨[], action, rest, rfl, hfirst⟩
      · exact Or.inr ⟨action :: earlier, next, later, rfl, hlater⟩

end Session

/-- After any session every committed assembly is reached from a root, through the dependencies of
manifests that are committed or were displaced.  It takes two groups that are loaded together and two
manifests of one name for that; without them everything that is committed is a root or is reached from
one through what is committed.  However loads are interleaved, what one of them commits is reached from
its own roots, through manifests that are committed then or that it has fetched and another load has
displaced. -/
theorem committed_for_a_reason
    (actions : List Action) :
    ((after actions).catalog.Reasoned fun n =>
      ∃ earlier action later, actions = earlier ++ action :: later ∧
        (after earlier).Displaces action n) ∧
    ((∀ resolver limit groups, .loadTogether resolver limit groups ∈ actions → 2 ≤ groups.length →
        ∀ identifier other m n, resolver.settle limit identifier = .ok m →
          resolver.settle limit other = .ok n → m.name = n.name → m = n) →
      ∀ m ∈ (after actions).catalog.assemblies, ∃ root ∈ (after actions).catalog.roots,
        Relation.ReflTransGen (Depends (after actions).catalog.Has) root.name m.name) ∧
    ∀ r before u after namings r' found, Chronicle r (before ++ u :: after) namings →
      u.load.Turns r r' (.ended (.ok found)) →
      ∃ batch, r.Published r' batch (found.map Manifest.name) ∧
        ∀ m ∈ batch, ∃ root ∈ found.map Manifest.name, Relation.ReflTransGen (Depends fun n =>
          r'.catalog.Has n ∨ Displaced (u.load.resolver.settle u.load.limit) u.load.batch.touched
            u.began r.catalog n) root m.name := by
  have hempty : empty.AtRest := ⟨Catalog.coherent_empty⟩
  have hall : (after actions).catalog.Reasoned fun n =>
      ∃ earlier action later, actions = earlier ++ action :: later ∧
        (after earlier).Displaces action n := by
    refine (hempty.performAll_reasoned (Catalog.reasoned_empty fun _ => False) actions).mono ?_
    exact fun n hn => hn.resolve_left id
  refine ⟨hall, fun hone m hm => ?_, ?_⟩
  · refine Catalog.Reasoned.exists_root (hall.mono ?_) (performAll_atRest actions).coherent hm
    rintro n ⟨earlier, action, later, rfl, hdisplaces⟩
    cases action with
    | loadTogether resolver limit groups =>
        obtain ⟨hgroups, -, identifier, other, m, hn, hm, hname, hne, -⟩ := hdisplaces
        exact hne (hone resolver limit groups (by simp) hgroups other identifier m n hm hn hname)
    | load | loadAll | loadRoots | promoteRoot | ask => exact hdisplaces
  · exact fun r before u after namings r' found h hturn => h.turn_reasons hturn

/-- An application and its library are loaded together, and each is reached from a root.  The load of the
library alone has published what is reached from its own root. -/
theorem committed_for_a_reason_of_application :
    let resolver := AnswerTable.resolver applicationAndLibrary
    let actions := [.loadTogether resolver none [["app"], ["lib"]]]
    let alone : Underway := ⟨.empty, resolver, none, .start .empty ["lib"]⟩
    ((∀ resolver limit groups, Action.loadTogether resolver limit groups ∈ actions →
      2 ≤ groups.length → ∀ identifier other m n, resolver.settle limit identifier = .ok m →
        resolver.settle limit other = .ok n → m.name = n.name → m = n) ∧
      (after actions).catalog.assemblies.map Manifest.name = ["lib", "app"] ∧
      ∀ m ∈ (after actions).catalog.assemblies, ∃ root ∈ (after actions).catalog.roots,
        Relation.ReflTransGen (Depends (after actions).catalog.Has) root.name m.name) ∧
    Chronicle .empty [alone] [] ∧ ∃ registry found,
      alone.load.Turns .empty registry (.ended (.ok found)) ∧ ∃ batch,
        Registry.empty.Published registry batch (found.map Manifest.name) := by
  intro resolver actions alone
  obtain ⟨-, hsession, hchronicles⟩ := committed_for_a_reason actions
  have hname := Resolver.faithful_settle none applicationAndLibrary_named
  have hone : ∀ resolver limit groups, Action.loadTogether resolver limit groups ∈ actions →
      2 ≤ groups.length → ∀ identifier other m n, resolver.settle limit identifier = .ok m →
        resolver.settle limit other = .ok n → m.name = n.name → m = n := by
    intro resolver' limit groups hmem _ identifier other m n hm hn hsame
    obtain ⟨rfl, rfl, rfl⟩ : resolver' = resolver ∧ limit = none ∧ groups = [["app"], ["lib"]] := by
      simpa [actions] using hmem
    obtain rfl := hname identifier m hm
    obtain rfl := hname other n hn
    rw [hsame, hn] at hm
    exact (Except.ok.inj hm).symm
  have hassemblies : (after actions).catalog.assemblies.map Manifest.name = ["lib", "app"] := by
    unfold actions resolver
    cbv
  have hchronicle : Chronicle .empty [alone] [] := .begins resolver none ["lib"] .nothing
  have hlib : (resolver.settle none "lib").map (fun m =>
      (Run.result (Run.proceed .empty alone.load.batch [m]).2).map (List.map Manifest.name)) =
        .ok (.ok ["lib"]) := by
    unfold alone resolver
    cbv
  refine ⟨⟨hone, hassemblies, hsession hone⟩, hchronicle, ?_⟩
  cases hm : resolver.settle none "lib" with
  | error failure =>
      rw [hm] at hlib
      cases hlib
  | ok m =>
      rw [hm] at hlib
      have hproceed : (Run.result (Run.proceed .empty alone.load.batch [m]).2).map
          (List.map Manifest.name) = .ok ["lib"] := Except.ok.inj hlib
      have hturn : Run.Turn (resolver.settle none) .empty alone.load.batch _ _ :=
        .proceeds (.cons hm .nil)
      rcases hend : Run.proceed .empty alone.load.batch [m] with ⟨registry, b | failure | found⟩ <;>
        rw [hend] at hproceed hturn
      · cases hproceed
      · cases hproceed
      · obtain ⟨batch, hpub, -⟩ := hchronicles .empty [] alone [] [] registry found hchronicle hturn
        exact ⟨registry, found, hturn, batch, hpub⟩

/-- A library of which another version stands under another identifier, and what the first depends on. -/
def twoVersions : AnswerTable :=
  [("x", .source (.value (.object [("name", .string "lib"), ("version", .string "1"),
    ("dependencies", .array [.string "part"])]))),
   ("y", .source (.value (.object [("name", .string "lib"), ("version", .string "2")]))),
   ("part", .source (.value (.object [("name", .string "part"), ("version", .string "1")])))]

/-- The second version is committed while the first one waits for its part.  Then the part is committed
too, though it is no root and no committed assembly depends on it. -/
theorem committed_without_a_reason :
    let c := (after [.loadTogether (AnswerTable.resolver twoVersions) none [["x"], ["y"]]]).catalog
    ∃ m ∈ c.assemblies, m.name = "part" ∧ ¬ ∃ root ∈ c.roots,
      Relation.ReflTransGen (Depends c.Has) root.name m.name := by
  intro c
  have hassemblies : c.assemblies.map (fun m => (m.name, m.version, m.dependencyNames)) =
      [("lib", "2", []), ("part", "1", [])] := by
    unfold c
    cbv
  have hroots : c.rootNames = ["lib"] := by
    unfold c
    cbv
  obtain ⟨lib, part, hcommitted, hlibDeps, hname, hpartDeps⟩ : ∃ lib part,
      c.assemblies = [lib, part] ∧ lib.dependencyNames = [] ∧ part.name = "part" ∧
        part.dependencyNames = [] := by
    obtain ⟨lib, rest, he, hfirst, hrest⟩ := List.map_eq_cons_iff.1 hassemblies
    obtain ⟨part, rest, rfl, hsecond, hnil⟩ := List.map_eq_cons_iff.1 hrest
    rw [List.map_eq_nil_iff.1 hnil] at he
    simp only [Prod.mk.injEq] at hfirst hsecond
    exact ⟨lib, part, he, hfirst.2.2, hsecond.1, hsecond.2.2⟩
  refine ⟨part, by simp [hcommitted], hname, ?_⟩
  rintro ⟨root, hroot, hpath⟩
  obtain ⟨-, hrootName⟩ := Catalog.mem_roots_iff.1 hroot
  rw [hroots, List.mem_singleton] at hrootName
  -- nothing that is committed declares a dependency, so a path has no steps
  rcases Relation.ReflTransGen.cases_head hpath with hsame | ⟨next, ⟨m, hm, -, hdep⟩, -⟩
  · rw [hrootName, hname] at hsame
    simp at hsame
  · rw [Catalog.Has, hcommitted] at hm
    rcases List.mem_cons.1 hm with rfl | hm
    · rw [hlibDeps] at hdep
      simp at hdep
    · rw [List.mem_singleton.1 hm, hpartDeps] at hdep
      simp at hdep

end TypeSystem
end TypeGraph
