import TypeGraph.Proofs.System.Unasked

/-!
# Sessions that differ in their questions

An action of a session is a sequence of steps, so a session that starts with nothing loaded reaches a
moment where nothing is on its way.  Two type systems at rest that differ in nothing but what they
remember answer every action alike, and stay so.

**Results.**
* `TypeSystem.reached_after`: sessions reach moments where nothing is on its way.
* `TypeSystem.ask_of_recalls`: a type system answers as its catalog does.
* `TypeSystem.Alike.perform_eq`, `TypeSystem.Alike.performAll_eq`: what is remembered changes no
  outcome.
* `TypeSystem.Alike.performAll_filter`: nor do the questions of a session.
-/

namespace TypeGraph

/-- The action asks a question. -/
def Action.isQuestion : Action → Bool
  | .ask _ => true
  | _ => false

namespace TypeSystem

/-- The moment of a type system at rest. -/
def moment (s : TypeSystem) : Moment :=
  ⟨s.registry, []⟩

/-- The load of a batch that is still on its way. -/
def pendingOf (resolver : Resolver) (limit : Option Number) : BatchState → Option Pending
  | .active b => some ⟨resolver, limit, b⟩
  | .ended _ => none

section Steps

variable (resolver : Resolver) (limit : Option Number)

/-- The loads of several groups begin one after the other. -/
theorem steps_begin
    (r : TypeRegistry)
    (ps : List Pending)
    (groups : List (List String)) :
    Relation.ReflTransGen Moment.Step ⟨r, ps⟩
      ⟨r, ps ++ groups.map fun identifiers => ⟨resolver, limit, .start r.catalog identifiers⟩⟩ := by
  induction groups generalizing ps with
  | nil => simpa using .refl
  | cons identifiers rest ih =>
      have hrest := ih (ps ++ [⟨resolver, limit, .start r.catalog identifiers⟩])
      rw [List.append_assoc, List.singleton_append] at hrest
      exact .head (.changes (.begins resolver limit identifiers)) hrest

/-- The turns of loads that are made together are steps. -/
theorem kept_steps
    (s : Moment) :
    Run.Kept resolver limit fun r _ states =>
      Relation.ReflTransGen Moment.Step s ⟨r, states.filterMap (pendingOf resolver limit)⟩ where
  goesOn r ended before b after next _ _ hJ ht := by
    simp only [List.filterMap_append, List.filterMap_cons, pendingOf] at hJ ⊢
    exact hJ.tail (.changes (@Moment.Change.goesOn _ _ _ _ ⟨resolver, limit, b⟩ _ ht))
  ends r ended before b after r' result _ _ hJ ht := by
    simp only [List.filterMap_append, List.filterMap_cons, pendingOf] at hJ ⊢
    exact hJ.tail (.changes (@Moment.Change.ends _ _ _ _ ⟨resolver, limit, b⟩ _ ht))

variable {s : TypeSystem}

/-- A load that is left alone until it ends is a sequence of steps. -/
theorem AtRest.loadTogether_steps
    (h : s.AtRest)
    (groups : List (List String)) :
    Relation.ReflTransGen Moment.Step s.moment
      (s.loadTogether resolver limit groups).1.moment := by
  have hbegin := steps_begin resolver limit s.registry [] groups
  obtain ⟨-, hended, hsteps⟩ := Loop.complete_induction h.coherent
    (kept_steps resolver limit s.moment) groups
    (by simpa [List.filterMap_map, Function.comp_def, pendingOf, moment] using hbegin)
  have hnone : (Loop.complete resolver limit s.registry groups).states.filterMap
      (pendingOf resolver limit) = [] := by
    rw [List.filterMap_eq_nil_iff]
    intro state hstate
    obtain ⟨result, rfl⟩ := hended state hstate
    rfl
  rw [hnone] at hsteps
  exact hsteps

/-- An action of a session is a sequence of steps. -/
theorem AtRest.perform_steps
    (h : s.AtRest)
    (action : Action) :
    Relation.ReflTransGen Moment.Step s.moment (s.perform action).1.moment := by
  cases action with
  | load resolver limit identifier => exact h.loadTogether_steps resolver limit [[identifier]]
  | loadAll resolver limit identifiers => exact h.loadTogether_steps resolver limit [identifiers]
  | loadRoots resolver limit identifiers => exact h.loadTogether_steps resolver limit [identifiers]
  | loadTogether resolver limit groups => exact h.loadTogether_steps resolver limit groups
  | promoteRoot name =>
      simp only [perform, TypeSystem.promoteRoot]
      cases hp : s.registry.promote name with
      | error failure => exact .refl
      | ok registry => exact .single (.changes (.promotes hp))
  | ask inquiry =>
      simp only [perform, TypeSystem.ask]
      cases hq : inquiry.query s.registry with
      | error failure => exact .refl
      | ok found => exact .single (.asks hq)

/-- A session is a sequence of steps. -/
theorem AtRest.performAll_steps
    (h : s.AtRest)
    (actions : List Action) :
    Relation.ReflTransGen Moment.Step s.moment (s.performAll actions).1.moment := by
  induction actions generalizing s with
  | nil => exact .refl
  | cons action rest ih => exact (h.perform_steps action).trans (ih (perform_atRest h action))

/-- A type system that a session has filled is at a moment where nothing is on its way. -/
theorem reached_after
    (actions : List Action) :
    (after actions).moment.Reached := by
  exact atRest_empty.performAll_steps actions

end Steps

/-- A type system is at rest when its moment is reached. -/
theorem atRest_of_reached
    {s : TypeSystem}
    (h : s.moment.Reached) :
    s.AtRest :=
  ⟨h.orderly.coherent⟩

/-- The type system with nothing remembered. -/
def unasked (s : TypeSystem) : TypeSystem :=
  { s with registry := s.registry.unasked }

theorem loadTogether_unasked
    (s : TypeSystem)
    (resolver : Resolver)
    (limit : Option Number)
    (groups : List (List String)) :
    s.unasked.loadTogether resolver limit groups =
      ((s.loadTogether resolver limit groups).1.unasked,
        (s.loadTogether resolver limit groups).2) := by
  have hrun : Loop.complete resolver limit s.unasked.registry groups =
      (Loop.complete resolver limit s.registry groups).unasked :=
    Loop.complete_unasked resolver limit s.registry groups
  unfold loadTogether
  rw [hrun]
  rfl

theorem promoteRoot_unasked
    (s : TypeSystem)
    (name : String) :
    s.unasked.promoteRoot name = (s.promoteRoot name).map unasked := by
  have hpromote : s.unasked.registry.promote name = (s.registry.promote name).map _ :=
    Registry.promote_unasked
  unfold promoteRoot
  rw [hpromote]
  cases s.registry.promote name with
  | error failure => rfl
  | ok registry => rfl

/-- A question leaves nothing but what is remembered. -/
theorem ask_unasked
    (s : TypeSystem)
    (inquiry : Inquiry) :
    (s.ask inquiry.query).1.unasked = s.unasked := by
  unfold ask
  cases hq : inquiry.query s.registry with
  | error failure => rfl
  | ok found =>
      obtain ⟨hc, hg⟩ := inquiry.steady_query _ _ _ hq
      simp [unasked, Registry.unasked, hc, hg]

/-- A type system answers as its catalog does. -/
theorem ask_of_recalls
    {α : Type}
    {s : TypeSystem}
    {question : Query α}
    {plain : Except Failure α}
    (hs : s.registry.Sincere)
    (h : question.Recalls s.catalog plain) :
    (s.ask question).2 = plain := by
  rw [← h.map_fst hs]
  unfold ask
  cases question s.registry <;> rfl

/-- A question is answered as the catalog answers it. -/
theorem ask_eq_plain
    {s : TypeSystem}
    (h : s.moment.Orderly)
    (inquiry : Inquiry) :
    (s.ask inquiry.query).2 = inquiry.plain s.catalog :=
  ask_of_recalls h.sincere (inquiry.recalls_query h.coherent.toIndexed)

/-- Two type systems at rest that differ in nothing but what they remember. -/
structure Alike (s s' : TypeSystem) : Prop where
  rest : s.AtRest
  rest' : s'.AtRest
  orderly : s.moment.Orderly
  orderly' : s'.moment.Orderly
  unasked_eq : s.unasked = s'.unasked

section Alike

variable {s s' : TypeSystem}

theorem Alike.loadTogether
    (h : s.Alike s')
    (resolver : Resolver)
    (limit : Option Number)
    (groups : List (List String)) :
    (s.loadTogether resolver limit groups).1.unasked =
        (s'.loadTogether resolver limit groups).1.unasked ∧
      (s.loadTogether resolver limit groups).2 = (s'.loadTogether resolver limit groups).2 := by
  have he := loadTogether_unasked s resolver limit groups
  rw [h.unasked_eq, loadTogether_unasked s'] at he
  obtain ⟨hafter, hloaded⟩ := Prod.ext_iff.1 he
  exact ⟨hafter.symm, hloaded.symm⟩

theorem Alike.promoteRoot
    (h : s.Alike s')
    (name : String) :
    (∃ failure, s.promoteRoot name = .error failure ∧ s'.promoteRoot name = .error failure) ∨
      ∃ after after', s.promoteRoot name = .ok after ∧ s'.promoteRoot name = .ok after' ∧
        after.unasked = after'.unasked := by
  have he : (s.promoteRoot name).map unasked = (s'.promoteRoot name).map unasked := by
    rw [← promoteRoot_unasked, h.unasked_eq, promoteRoot_unasked]
  cases hs : s.promoteRoot name <;> cases hs' : s'.promoteRoot name <;>
    simp [hs, hs', Except.map] at he
  · exact Or.inl ⟨_, rfl, by rw [he]⟩
  · exact Or.inr ⟨_, _, rfl, rfl, he⟩

theorem Alike.ask
    (h : s.Alike s')
    (inquiry : Inquiry) :
    (s.ask inquiry.query).2 = (s'.ask inquiry.query).2 := by
  have hcatalog : s.catalog = s'.catalog := congrArg (fun u => u.registry.catalog) h.unasked_eq
  rw [ask_eq_plain h.orderly, ask_eq_plain h.orderly', hcatalog]

/-- An action is answered alike, and what it leaves differs in nothing but what is remembered. -/
theorem Alike.perform_eq
    (h : s.Alike s')
    (action : Action) :
    (s.perform action).1.unasked = (s'.perform action).1.unasked ∧
      (s.perform action).2 = (s'.perform action).2 := by
  cases action with
  | load resolver limit identifier =>
      obtain ⟨hafter, hloaded⟩ := h.loadTogether resolver limit [[identifier]]
      refine ⟨hafter, ?_⟩
      simp only [perform, TypeSystem.load, loadRoots, hloaded]
  | loadAll resolver limit identifiers =>
      obtain ⟨hafter, hloaded⟩ := h.loadTogether resolver limit [identifiers]
      refine ⟨hafter, ?_⟩
      simp only [perform, TypeSystem.loadAll, loadRoots, hloaded]
  | loadRoots resolver limit identifiers =>
      obtain ⟨hafter, hloaded⟩ := h.loadTogether resolver limit [identifiers]
      refine ⟨hafter, ?_⟩
      simp only [perform, TypeSystem.loadRoots, hloaded]
  | loadTogether resolver limit groups =>
      obtain ⟨hafter, hloaded⟩ := h.loadTogether resolver limit groups
      refine ⟨hafter, ?_⟩
      simp only [perform, hloaded]
  | promoteRoot name =>
      simp only [perform]
      rcases h.promoteRoot name with ⟨failure, hs, hs'⟩ | ⟨after, after', hs, hs', he⟩
      · rw [hs, hs']
        exact ⟨h.unasked_eq, rfl⟩
      · rw [hs, hs']
        exact ⟨he, rfl⟩
  | ask inquiry =>
      refine ⟨?_, congrArg Outcome.replied (h.ask inquiry)⟩
      have hafter := ask_unasked s inquiry
      rw [h.unasked_eq, ← ask_unasked s' inquiry] at hafter
      exact hafter

theorem Alike.perform
    (h : s.Alike s')
    (action : Action) :
    (s.perform action).1.Alike (s'.perform action).1 :=
  ⟨perform_atRest h.rest action, perform_atRest h.rest' action,
    h.orderly.steps (h.rest.perform_steps action), h.orderly'.steps (h.rest'.perform_steps action),
    (h.perform_eq action).1⟩

/-- A session is answered alike. -/
theorem Alike.performAll_eq
    (h : s.Alike s')
    (actions : List Action) :
    (s.performAll actions).2 = (s'.performAll actions).2 := by
  induction actions generalizing s s' with
  | nil => rfl
  | cons action rest ih =>
      have hrest := ih (h.perform action)
      simp only [performAll, (h.perform_eq action).2, hrest]

/-- A question on one side keeps two type systems alike. -/
theorem Alike.ask_left
    (h : s.Alike s')
    (inquiry : Inquiry) :
    (s.perform (.ask inquiry)).1.Alike s' :=
  ⟨perform_atRest h.rest _, h.rest', h.orderly.steps (h.rest.perform_steps _), h.orderly',
    (ask_unasked s inquiry).trans h.unasked_eq⟩

/-- Two sessions that differ in their questions alone leave type systems alike. -/
theorem Alike.performAll_filter
    (h : s.Alike s')
    (actions : List Action) :
    (s.performAll actions).1.Alike
      (s'.performAll (actions.filter fun action => !action.isQuestion)).1 := by
  induction actions generalizing s s' with
  | nil => exact h
  | cons action rest ih =>
      cases action with
      | ask inquiry => exact ih (h.ask_left inquiry)
      | load resolver limit identifier => exact ih (h.perform (.load resolver limit identifier))
      | loadAll resolver limit identifiers => exact ih (h.perform (.loadAll resolver limit identifiers))
      | loadRoots resolver limit identifiers =>
          exact ih (h.perform (.loadRoots resolver limit identifiers))
      | loadTogether resolver limit groups => exact ih (h.perform (.loadTogether resolver limit groups))
      | promoteRoot name => exact ih (h.perform (.promoteRoot name))

theorem Alike.empty :
    Alike TypeSystem.empty TypeSystem.empty :=
  ⟨⟨Catalog.coherent_empty⟩, ⟨Catalog.coherent_empty⟩, Moment.orderly_start,
    Moment.orderly_start, rfl⟩

/-- What is asked in a session changes nothing of how it goes on. -/
theorem performAll_after_filter
    (earlier later : List Action) :
    ((after earlier).performAll later).2 =
      ((after (earlier.filter fun action => !action.isQuestion)).performAll later).2 :=
  (Alike.empty.performAll_filter earlier).performAll_eq later

end Alike

end TypeSystem

end TypeGraph
