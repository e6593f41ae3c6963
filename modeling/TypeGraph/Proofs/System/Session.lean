import TypeGraph.Proofs.Inheritance.Steady
import TypeGraph.Proofs.Loading.Alone

/-!
# Sessions

A session asks a type system for one thing after another: to load roots, alone or in several groups
together, to make an assembly a root, or to answer a question.  Each load brings its own resolver, so
what an identifier stands for may change from load to load.

Between two actions a type system is at rest: its catalog is coherent.

**Results.**
* `TypeSystem.perform_atRest`: an action leaves a type system at rest.
* `TypeSystem.performAll_atRest`: so does every session that starts empty.
-/

namespace TypeGraph

/-- What a question about the committed types is answered with. -/
inductive Reply where
  | names (names : List String)
  | holds (answer : Bool)
  | methods (members : List (TypeDef × Method))
  | properties (members : List (TypeDef × Property))
  | types (types : List TypeDef)
  | assemblies (assemblies : List Manifest)
  | text (text : String)

/-- A question about the committed types: one that the catalog answers by itself, or one of the
structural queries about the type that a key names. -/
inductive Inquiry where
  | view (compute : Catalog → Except Failure Reply)
  | ancestors (key : Json)
  | interfaces (key : Json) (inherited : Bool)
  | extendsType (key other : Json)
  | dataType (key : Json)
  | implementations (key : Json)
  | methods (key : Json) (inherited : Bool)
  | properties (key : Json) (inherited : Bool)

namespace Inquiry

/-- The type that a key names. -/
def typeAt (key : Json) : Query TypeDef :=
  Query.fromCatalog fun c => c.findType key

/-- The query of a question. -/
def query : Inquiry → Query Reply
  | .view compute => Query.fromCatalog compute
  | .ancestors key => do return .names (← Query.ancestorsOf (← typeAt key))
  | .interfaces key inherited => do
      return .names (← Query.interfacesOf (← typeAt key) inherited)
  | .extendsType key other => do
      return .holds (← Query.extendsType (← typeAt key) (← typeAt other))
  | .dataType key => do return .holds (← Query.isDataType (← typeAt key))
  | .implementations key => do return .names (← Query.implementations (← typeAt key))
  | .methods key inherited => do return .methods (← Query.methodsOf (← typeAt key) inherited)
  | .properties key inherited => do
      return .properties (← Query.propertiesOf (← typeAt key) inherited)

/-- Questions leave the catalog as it was. -/
theorem steady_query
    (i : Inquiry) :
    i.query.Steady := by
  have htype : ∀ key, (typeAt key).Steady := fun key => Query.steady_fromCatalog _
  cases i with
  | view compute => exact Query.steady_fromCatalog compute
  | ancestors key =>
      refine Query.steady_bind (htype key) fun t => ?_
      exact Query.steady_bind (Query.steady_ancestorsOf t) fun _ => Query.steady_pure _
  | interfaces key inherited =>
      refine Query.steady_bind (htype key) fun t => ?_
      exact Query.steady_bind (Query.steady_interfacesOf t inherited) fun _ => Query.steady_pure _
  | extendsType key other =>
      refine Query.steady_bind (htype key) fun t => Query.steady_bind (htype other) fun u => ?_
      exact Query.steady_bind (Query.steady_extendsType t u) fun _ => Query.steady_pure _
  | dataType key =>
      refine Query.steady_bind (htype key) fun t => ?_
      exact Query.steady_bind (Query.steady_isDataType t) fun _ => Query.steady_pure _
  | implementations key =>
      refine Query.steady_bind (htype key) fun t => ?_
      exact Query.steady_bind (Query.steady_implementations t) fun _ => Query.steady_pure _
  | methods key inherited =>
      refine Query.steady_bind (htype key) fun t => ?_
      exact Query.steady_bind (Query.steady_methodsOf t inherited) fun _ => Query.steady_pure _
  | properties key inherited =>
      refine Query.steady_bind (htype key) fun t => ?_
      exact Query.steady_bind (Query.steady_propertiesOf t inherited) fun _ => Query.steady_pure _

end Inquiry

/-- One action of a session. -/
inductive Action where
  | load (resolver : Resolver) (limit : Option Number) (identifier : String)
  | loadAll (resolver : Resolver) (limit : Option Number) (identifiers : List String)
  | loadRoots (resolver : Resolver) (limit : Option Number) (identifiers : List String)
  | loadTogether (resolver : Resolver) (limit : Option Number) (groups : List (List String))
  | promoteRoot (name : String)
  | ask (inquiry : Inquiry)

/-- What an action answers. -/
inductive Outcome where
  | loaded (loaded : Loaded (Except Failure Manifest))
  | loadedAll (loaded : Loaded (Except Failure Unit))
  | loadedRoots (loaded : Loaded (Except Failure (List Manifest)))
  | loadedTogether (loaded : Loaded (List (Except Failure (List Manifest))))
  | promoted (result : Except Failure Unit)
  | replied (result : Except Failure Reply)

namespace TypeSystem

/-- Perform one action. -/
def perform (s : TypeSystem) : Action → TypeSystem × Outcome
  | .load resolver limit identifier =>
      let (after, loaded) := s.load resolver limit identifier
      (after, .loaded loaded)
  | .loadAll resolver limit identifiers =>
      let (after, loaded) := s.loadAll resolver limit identifiers
      (after, .loadedAll loaded)
  | .loadRoots resolver limit identifiers =>
      let (after, loaded) := s.loadRoots resolver limit identifiers
      (after, .loadedRoots loaded)
  | .loadTogether resolver limit groups =>
      let (after, loaded) := s.loadTogether resolver limit groups
      (after, .loadedTogether loaded)
  | .promoteRoot name =>
      match s.promoteRoot name with
      | .error failure => (s, .promoted (.error failure))
      | .ok after => (after, .promoted (.ok ()))
  | .ask inquiry =>
      let (after, result) := s.ask inquiry.query
      (after, .replied result)

/-- Perform some actions one after the other. -/
def performAll (s : TypeSystem) : List Action → TypeSystem × List Outcome
  | [] => (s, [])
  | action :: rest =>
      let (after, outcome) := s.perform action
      let (final, outcomes) := after.performAll rest
      (final, outcome :: outcomes)

/-- A type system after a session that started with nothing loaded. -/
def after (actions : List Action) : TypeSystem :=
  (empty.performAll actions).1

/-- The catalog is coherent. -/
structure AtRest (s : TypeSystem) : Prop where
  coherent : s.catalog.Coherent

theorem atRest_empty :
    empty.AtRest :=
  ⟨Catalog.coherent_empty⟩

section AtRest

variable {s : TypeSystem}

/-- Loading groups together leaves a type system at rest. -/
theorem AtRest.loadTogether
    (h : s.AtRest)
    (resolver : Resolver)
    (limit : Option Number)
    (groups : List (List String)) :
    (s.loadTogether resolver limit groups).1.AtRest :=
  ⟨(Loop.complete_induction h.coherent (Run.Kept.nothing resolver limit) groups trivial).1⟩

/-- The loader of a load alone, when the load has ended. -/
theorem AtRest.complete_alone
    (h : s.AtRest)
    (resolver : Resolver)
    (limit : Option Number)
    (identifiers : List String) :
    (Loop.complete resolver limit s.registry [identifiers]).states =
        [.ended (s.loadRoots resolver limit identifiers).2.result] ∧
      (Loop.complete resolver limit s.registry [identifiers]).requests =
        (s.loadRoots resolver limit identifiers).2.requests := by
  refine ⟨?_, rfl⟩
  obtain ⟨-, hended, -⟩ := Loop.complete_induction h.coherent
    (Run.Kept.nothing resolver limit) [identifiers] trivial
  obtain ⟨state, hstate⟩ := List.length_eq_one_iff.1
    (Loop.length_states h.coherent resolver limit [identifiers])
  obtain ⟨result, rfl⟩ := hended state (by simp [hstate])
  have hresult : (s.loadRoots resolver limit identifiers).2.result = result := by
    unfold loadRoots TypeSystem.loadTogether
    simp [Loader.results, hstate, Run.result]
  rw [hstate, hresult]

theorem AtRest.promoteRoot
    (h : s.AtRest)
    {name : String}
    {after : TypeSystem}
    (hp : s.promoteRoot name = .ok after) :
    after.AtRest := by
  unfold TypeSystem.promoteRoot Registry.promote at hp
  cases hc : s.registry.catalog.promote name with
  | error failure => simp [hc] at hp
  | ok catalog =>
      simp only [hc, Except.ok.injEq] at hp
      subst hp
      obtain ⟨hknown, rootNames, rfl, hmem⟩ := Catalog.promote_ok hc
      refine .mk (h.coherent.withRoots ?_)
      intro n hn
      rcases (hmem n).1 hn with hn | rfl
      · exact h.coherent.roots n hn
      · exact hknown

theorem AtRest.ask
    (h : s.AtRest)
    (inquiry : Inquiry) :
    (s.ask inquiry.query).1.AtRest := by
  unfold TypeSystem.ask
  split
  · exact h
  · rename_i answer registry hq
    obtain ⟨hc, -⟩ := inquiry.steady_query _ _ _ hq
    have hcoherent := h.coherent
    rw [TypeSystem.catalog, ← hc] at hcoherent
    exact .mk hcoherent

/-- Every action leaves a type system at rest. -/
theorem perform_atRest
    (h : s.AtRest)
    (action : Action) :
    (s.perform action).1.AtRest := by
  cases action with
  | load resolver limit identifier => exact h.loadTogether resolver limit [[identifier]]
  | loadAll resolver limit identifiers => exact h.loadTogether resolver limit [identifiers]
  | loadRoots resolver limit identifiers => exact h.loadTogether resolver limit [identifiers]
  | loadTogether resolver limit groups => exact h.loadTogether resolver limit groups
  | promoteRoot name =>
      cases hp : s.promoteRoot name with
      | error failure => simpa only [perform, hp] using h
      | ok after => simpa only [perform, hp] using h.promoteRoot hp
  | ask inquiry => exact h.ask inquiry

theorem AtRest.performAll
    (h : s.AtRest)
    (actions : List Action) :
    (s.performAll actions).1.AtRest := by
  induction actions generalizing s with
  | nil => exact h
  | cons action rest ih => exact ih (perform_atRest h action)

/-- A type system that a session has filled is at rest. -/
theorem performAll_atRest
    (actions : List Action) :
    (after actions).AtRest := by
  exact atRest_empty.performAll actions

end AtRest

end TypeSystem
end TypeGraph
