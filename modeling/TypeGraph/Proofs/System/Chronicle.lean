import TypeGraph.Proofs.Loading.Began
import TypeGraph.Proofs.System.Moment

/-!
# Chronicles

A chronicle follows the steps to a moment and keeps, for each load on its way, the catalog that it has
begun with, and of what is past everything that has named roots: the loads that have succeeded and the
promotions.  Every moment that is reached has a chronicle, and its roots can be read off there.

A moment only adds to what is committed: the lists of assemblies and of types that a step leaves begin
with those that it has found.

**Results.**
* `Chronicle.reached`, `Moment.Reached.chronicle`: chronicles lead to the moments that are reached.
* `Chronicle.recorded`: what a chronicle tells of the loads on their way and of what is committed.
* `Moment.Step.extends`, `Moment.Orderly.extends`: committed assemblies and types stay where they are.
* `Moment.Orderly.keeps`: so a full name leads to the type that it led to.
-/

namespace TypeGraph

/-- A load on its way, with the catalog that it has begun with. -/
structure Underway where
  began : Catalog
  load : Pending

/-- What names roots: a load that has succeeded, with its request and the catalog that it had begun
with, or a promotion. -/
inductive Naming where
  | loaded (began : Catalog) (resolver : Resolver) (limit : Option Number)
      (identifiers : List String)
  | promoted (name : String)

/-- A load names as roots what its identifiers stand for, and a promotion the assembly that it gives. -/
def Naming.Names : Naming → String → Prop
  | .loaded began resolver limit identifiers, name =>
      ∃ identifier ∈ identifiers, RootName (resolver.settle limit) began identifier name
  | .promoted given, name => name = given

/-- The steps from an empty type system to a registry with some loads on their way to it, and what has
named roots by then. -/
inductive Chronicle : TypeRegistry → List Underway → List Naming → Prop
  | nothing : Chronicle .empty [] []
  | begins {r : TypeRegistry} {us : List Underway} {namings : List Naming} (resolver : Resolver)
      (limit : Option Number) (identifiers : List String) :
      Chronicle r us namings →
      Chronicle r (us ++ [⟨r.catalog, resolver, limit, .start r.catalog identifiers⟩]) namings
  | goesOn {r r' : TypeRegistry} {before after : List Underway} {u : Underway} {next : Batch}
      {namings : List Naming} :
      Chronicle r (before ++ u :: after) namings →
      u.load.Turns r r' (.active next) →
      Chronicle r' (before ++ ⟨u.began, { u.load with batch := next }⟩ :: after) namings
  | fails {r r' : TypeRegistry} {before after : List Underway} {u : Underway} {failure : Failure}
      {namings : List Naming} :
      Chronicle r (before ++ u :: after) namings →
      u.load.Turns r r' (.ended (.error failure)) →
      Chronicle r' (before ++ after) namings
  | loads {r r' : TypeRegistry} {before after : List Underway} {u : Underway}
      {found : List Manifest} {namings : List Naming} :
      Chronicle r (before ++ u :: after) namings →
      u.load.Turns r r' (.ended (.ok found)) →
      Chronicle r' (before ++ after)
        (namings ++ [.loaded u.began u.load.resolver u.load.limit u.load.batch.identifiers])
  | promotes {r r' : TypeRegistry} {us : List Underway} {namings : List Naming} {name : String} :
      Chronicle r us namings →
      r.promote name = .ok r' →
      Chronicle r' us (namings ++ [.promoted name])
  | asks {r r' : TypeRegistry} {us : List Underway} {namings : List Naming} {inquiry : Inquiry}
      {reply : Reply} :
      Chronicle r us namings →
      inquiry.query r = .ok (reply, r') →
      Chronicle r' us namings

section Chronicle

variable {r : TypeRegistry} {us : List Underway} {namings : List Naming}

/-- A chronicle leads to a moment that is reached. -/
theorem Chronicle.reached
    (h : Chronicle r us namings) :
    Moment.Reached ⟨r, us.map Underway.load⟩ := by
  induction h with
  | nothing => exact .refl
  | begins resolver limit identifiers _ ih =>
      rw [List.map_append]
      exact ih.tail (.changes (.begins resolver limit identifiers))
  | goesOn _ hturn ih =>
      rw [List.map_append, List.map_cons] at ih ⊢
      exact ih.tail (.changes (.goesOn hturn))
  | fails _ hturn ih =>
      rw [List.map_append, List.map_cons] at ih
      rw [List.map_append]
      exact ih.tail (.changes (.ends hturn))
  | loads _ hturn ih =>
      rw [List.map_append, List.map_cons] at ih
      rw [List.map_append]
      exact ih.tail (.changes (.ends hturn))
  | promotes _ hpromote ih => exact ih.tail (.changes (.promotes hpromote))
  | asks _ hquery ih => exact ih.tail (.asks hquery)

/-- A step goes on with a chronicle. -/
theorem Chronicle.step
    {s s' : Moment}
    (h : Chronicle s.registry us namings)
    (hus : us.map Underway.load = s.pending)
    (hs : s.Step s') :
    ∃ us' namings', us'.map Underway.load = s'.pending ∧ Chronicle s'.registry us' namings' := by
  cases hs with
  | changes hchange =>
      cases hchange with
      | begins resolver limit identifiers =>
          exact ⟨_, namings, by simp [hus], .begins resolver limit identifiers h⟩
      | goesOn hturn =>
          obtain ⟨before, rest, rfl, rfl, hrest⟩ := List.map_eq_append_iff.1 hus
          obtain ⟨u, after, rfl, rfl, rfl⟩ := List.map_eq_cons_iff.1 hrest
          exact ⟨_, namings, by simp, .goesOn h hturn⟩
      | @ends r r' _ _ _ result hturn =>
          obtain ⟨before, rest, rfl, rfl, hrest⟩ := List.map_eq_append_iff.1 hus
          obtain ⟨u, after, rfl, rfl, rfl⟩ := List.map_eq_cons_iff.1 hrest
          cases result with
          | error failure => exact ⟨_, namings, by simp, .fails h hturn⟩
          | ok found => exact ⟨_, _, by simp, .loads h hturn⟩
      | promotes hpromote => exact ⟨us, _, hus, .promotes h hpromote⟩
  | asks hquery => exact ⟨us, namings, hus, .asks h hquery⟩

/-- Every moment that is reached has a chronicle. -/
theorem Moment.Reached.chronicle
    {s : Moment}
    (h : s.Reached) :
    ∃ us namings, us.map Underway.load = s.pending ∧ Chronicle s.registry us namings := by
  induction h with
  | refl => exact ⟨[], [], rfl, .nothing⟩
  | tail _ hstep ih =>
      obtain ⟨us, namings, hus, hchronicle⟩ := ih
      exact hchronicle.step hus hstep

/-- What a chronicle tells: each load on its way has begun with its catalog, every committed assembly was
decoded from a source, and the names of the roots are those that something has named. -/
structure Recorded (r : TypeRegistry) (us : List Underway) (namings : List Naming) : Prop where
  begun : ∀ u ∈ us, u.load.batch.Began (u.load.resolver.settle u.load.limit) u.began
  decoded : ∀ m ∈ r.catalog.assemblies, ∃ source, Manifest.decode source = .ok m
  named : ∀ name, name ∈ r.catalog.rootNames ↔ ∃ naming ∈ namings, naming.Names name

/-- One more naming names what was named before and what it names by itself. -/
theorem exists_naming_concat
    {naming : Naming}
    {name : String} :
    (∃ n ∈ namings ++ [naming], n.Names name) ↔
      (∃ n ∈ namings, n.Names name) ∨ naming.Names name := by
  simp only [List.mem_append, List.mem_singleton, or_and_right, exists_or, exists_eq_left]

/-- What the end of a load has done, as a chronicle tells it. -/
theorem Recorded.outcome
    {r' : TypeRegistry}
    {before after : List Underway}
    {u : Underway}
    {result : Except Failure (List Manifest)}
    (h : Recorded r (before ++ u :: after) namings)
    (hchronicle : Chronicle r (before ++ u :: after) namings)
    (hturn : u.load.Turns r r' (.ended result)) :
    (∃ failure, result = .error failure ∧ r' = r) ∨
      ∃ batch found, result = .ok found ∧ r.Published r' batch (found.map Manifest.name) ∧
        (∀ m ∈ batch, ∃ source, Manifest.decode source = .ok m) ∧
        ∀ name, name ∈ found.map Manifest.name ↔
          ∃ identifier ∈ u.load.batch.identifiers,
            RootName (u.load.resolver.settle u.load.limit) u.began identifier name := by
  have horderly := hchronicle.reached.orderly
  have hlawful := horderly.lawful u.load (by simp)
  refine (Run.turn_outcome horderly.coherent hlawful (h.begun u (by simp)) hturn).imp_right ?_
  rintro ⟨batch, found, hok, hpub, hanswered, hnamed⟩
  refine ⟨batch, found, hok, hpub, fun m hm => ?_, fun name => mem_rootNames_iff hnamed⟩
  obtain ⟨identifier, hsettle⟩ := hanswered m hm
  obtain ⟨source, -, hdecode⟩ := Resolver.answer_of_settle hsettle
  exact ⟨source, hdecode⟩

/-- A load that is not on its way any more leaves the others. -/
theorem Recorded.others
    {before after : List Underway}
    {u : Underway}
    (h : Recorded r (before ++ u :: after) namings) :
    ∀ v ∈ before ++ after, v.load.batch.Began (v.load.resolver.settle v.load.limit) v.began := by
  have hsub : (before ++ after).Sublist (before ++ u :: after) :=
    (List.sublist_cons_self u after).append_left before
  exact fun v hv => h.begun v (hsub.subset hv)

/-- A chronicle records what it tells.  An end needs to know that the load is lawful and the catalog
coherent, which holds at every moment that is reached. -/
theorem Chronicle.recorded
    (h : Chronicle r us namings) :
    Recorded r us namings := by
  induction h with
  | nothing =>
      exact ⟨by simp, by simp [Registry.empty, Catalog.empty], by simp [Registry.empty, Catalog.empty]⟩
  | begins resolver limit identifiers _ ih =>
      refine ⟨fun u hu => ?_, ih.decoded, ih.named⟩
      rcases List.mem_append.1 hu with hu | hu
      · exact ih.begun u hu
      · rw [List.mem_singleton.1 hu]
        exact Batch.Began.start _ _ _
  | @goesOn r r' before after u next namings _ hturn ih =>
      obtain ⟨rfl, hmoves, -⟩ := hturn.active
      refine ⟨fun v hv => ?_, ih.decoded, ih.named⟩
      simp only [List.mem_append, List.mem_cons] at hv
      rcases hv with hv | rfl | hv
      · exact ih.begun v (by simp [hv])
      · exact (ih.begun u (by simp)).moves hmoves
      · exact ih.begun v (by simp [hv])
  | fails hbefore hturn ih =>
      rcases ih.outcome hbefore hturn with ⟨_, -, rfl⟩ | ⟨_, _, hok, -⟩
      · exact ⟨ih.others, ih.decoded, ih.named⟩
      · cases hok
  | loads hbefore hturn ih =>
      rcases ih.outcome hbefore hturn with
        ⟨_, herror, -⟩ | ⟨batch, found, hok, hpub, hdecoded, hnamed⟩
      · cases herror
      · cases hok
        refine ⟨ih.others, fun m hm => ?_, fun name => ?_⟩
        · rw [hpub.assemblies_eq] at hm
          exact (List.mem_append.1 hm).elim (ih.decoded m) (hdecoded m)
        · obtain ⟨rootNames, rfl, hroots⟩ := hpub
          rw [exists_naming_concat, hroots, ih.named, hnamed, Naming.Names]
  | promotes _ hpromote ih =>
      obtain ⟨-, rootNames, rfl, hroots⟩ := Registry.promote_withRoots hpromote
      refine ⟨ih.begun, ih.decoded, fun n => ?_⟩
      rw [exists_naming_concat, ← ih.named]
      exact hroots n
  | asks _ hquery ih =>
      obtain ⟨hcatalog, -⟩ := Inquiry.steady_query _ _ _ _ hquery
      exact ⟨ih.begun, by rw [hcatalog]; exact ih.decoded, by rw [hcatalog]; exact ih.named⟩

end Chronicle

/-- The lists of assemblies and of types of a catalog are how those of another one begin. -/
structure Catalog.Begins (c later : Catalog) : Prop where
  assemblies : c.assemblies <+: later.assemblies
  types : c.types <+: later.types

namespace Moment

section Extends

variable {s s' : Moment}

theorem Becomes.extends
    {r r' : TypeRegistry}
    (h : Becomes r r') :
    r.catalog.Begins r'.catalog := by
  cases h with
  | stays rootNames he =>
      rw [he]
      exact ⟨List.prefix_rfl, List.prefix_rfl⟩
  | published batch roots hp =>
      obtain ⟨rootNames, rfl, -⟩ := hp
      exact ⟨List.prefix_append _ _, List.prefix_append _ _⟩

/-- A step leaves the committed assemblies and types where they are, and adds others after them. -/
theorem Step.extends
    (hs : s.Step s')
    (h : s.Orderly) :
    s.registry.catalog.Begins s'.registry.catalog := by
  cases hs with
  | changes hchange => exact (hchange.becomes h.coherent h.lawful).1.extends
  | asks hquery =>
      rw [(h.asks hquery).1.catalog_eq]
      exact ⟨List.prefix_rfl, List.prefix_rfl⟩

/-- So do steps. -/
theorem Orderly.extends
    (h : s.Orderly)
    (hs : Relation.ReflTransGen Step s s') :
    s.registry.catalog.Begins s'.registry.catalog := by
  induction hs with
  | refl => exact ⟨List.prefix_rfl, List.prefix_rfl⟩
  | tail hbefore hstep ih =>
      have hlast := hstep.extends (h.steps hbefore)
      exact ⟨ih.assemblies.trans hlast.assemblies, ih.types.trans hlast.types⟩

/-- What is found by a full name at a moment is found by it after steps. -/
theorem Orderly.keeps
    (h : s.Orderly)
    (hs : Relation.ReflTransGen Step s s') :
    s.registry.catalog.Keeps s'.registry.catalog := by
  obtain ⟨more, hmore⟩ := (h.extends hs).types
  exact Catalog.Grows.keeps ⟨more, hmore.symm⟩

end Extends

end Moment
end TypeGraph
