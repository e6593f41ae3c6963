import TypeGraph.Loading.Loop
import TypeGraph.Proofs.System.Moment

/-!
# What was asked makes no difference

Nothing but a question reads the memo tables.  So a turn, an event and a whole load do the same to a
registry that has forgotten everything, and what questions leave behind is seen by no later action.

**Results.**
* `Run.Turn.unasked`, `Loader.next?_unasked`, `Loop.complete_unasked`: loads do not read what is
  remembered.
* `Moment.Reached.quiet`: the questions on the way to a moment could have been left out.
-/

namespace TypeGraph

namespace Registry

/-- The registry with nothing remembered. -/
def unasked (r : TypeRegistry) : TypeRegistry :=
  { r with memo := .empty }

variable {r r' : TypeRegistry}

theorem Learns.unasked_eq
    (h : r.Learns r') :
    r'.unasked = r.unasked := by
  simp [unasked, h.catalog_eq, h.generation_eq]

theorem commit_unasked
    (batch : List Manifest)
    (roots : List String) :
    r.unasked.commit batch roots = ((r.commit batch roots).1.unasked, (r.commit batch roots).2) := by
  simp only [commit, unasked]
  split <;> rfl

theorem promote_unasked
    {name : String} :
    r.unasked.promote name = (r.promote name).map unasked := by
  simp only [promote, unasked]
  split <;> rfl

end Registry

namespace Run

theorem settle_unasked
    (r : TypeRegistry)
    (d : Discovery) :
    settle r.unasked d = ((settle r d).1.unasked, (settle r d).2) := by
  have hcatalog : r.unasked.catalog = r.catalog := rfl
  rw [settle, settle, hcatalog]
  cases hlink : d.link r.catalog with
  | error failure => rfl
  | ok linked =>
      simp only [Registry.commit_unasked]
      rcases r.commit linked d.rootNames with ⟨after, failure | _⟩
      · rfl
      · rfl

theorem proceed_unasked
    (r : TypeRegistry)
    (b : Batch)
    (manifests : List Manifest) :
    proceed r.unasked b manifests =
      ((proceed r b manifests).1.unasked, (proceed r b manifests).2) := by
  have hcatalog : r.unasked.catalog = r.catalog := rfl
  rw [proceed, proceed, hcatalog]
  cases b.advance r.catalog manifests with
  | error failure => rfl
  | ok next =>
      simp only [settle_unasked]
      split
      · rfl
      · rfl

/-- A turn does the same with nothing remembered. -/
theorem Turn.unasked
    {answer : String → Except Failure Manifest}
    {r r' : TypeRegistry}
    {b : Batch}
    {state : BatchState}
    (h : Turn answer r b r' state) :
    Turn answer r.unasked b r'.unasked state := by
  cases h with
  | fails hi hf => exact .fails hi hf
  | @proceeds manifests hans =>
      have hturn : Turn answer r.unasked b _ _ := .proceeds hans
      rwa [proceed_unasked] at hturn

end Run

namespace Loader

/-- The loader with nothing remembered. -/
def unasked (s : Loader) : Loader :=
  { s with registry := s.registry.unasked }

theorem turned_unasked
    (s : Loader)
    (i : Nat)
    (b : Batch)
    (r : TypeRegistry)
    (state : BatchState) :
    s.unasked.turned i b (r.unasked, state) = (s.turned i b (r, state)).unasked := by
  cases state <;> rfl

theorem resume?_unasked
    (s : Loader)
    (i : Nat) :
    s.unasked.resume? i = (s.resume? i).map unasked := by
  have hloads : s.unasked.loads = s.loads := rfl
  have hflight : s.unasked.flight = s.flight := rfl
  have hregistry : s.unasked.registry = s.registry.unasked := rfl
  unfold resume?
  rw [hloads, hflight, hregistry]
  split
  · split
    · rw [Run.proceed_unasked, turned_unasked]
      rfl
    · rfl
  · rfl

theorem fail?_unasked
    (s : Loader)
    (i number : Nat) :
    s.unasked.fail? i number = (s.fail? i number).map unasked := by
  have hloads : s.unasked.loads = s.loads := rfl
  have hflight : s.unasked.flight = s.flight := rfl
  have hregistry : s.unasked.registry = s.registry.unasked := rfl
  unfold fail?
  rw [hloads, hflight, hregistry]
  split
  · split
    · rw [turned_unasked]
      rfl
    · rfl
  · rfl

/-- An event does the same with nothing remembered. -/
theorem next?_unasked
    (answer : String → Except Failure Manifest)
    (s : Loader)
    (event : Event) :
    s.unasked.next? answer event = (s.next? answer event).map unasked := by
  cases event with
  | requests i =>
      have hloads : s.unasked.loads = s.loads := rfl
      simp only [next?, request?, hloads]
      split <;> rfl
  | answers number => simp only [next?, Option.map_map]; rfl
  | forgets number => simp only [next?, Option.map_map]; rfl
  | resumes i => exact s.resume?_unasked i
  | fails i number => exact s.fail?_unasked i number

end Loader

namespace Loop

/-- The loop with nothing remembered. -/
def unasked (loop : Loop) : Loop :=
  { loop with loader := loop.loader.unasked }

section Unasked

variable (resolver : Resolver) (limit : Option Number)

theorem pass_unasked
    (loop : Loop)
    (job : Nat × Loader.Event) :
    loop.unasked.pass resolver limit job = (loop.pass resolver limit job).unasked := by
  obtain ⟨ticks, event⟩ := job
  cases ticks with
  | succ ticks => rfl
  | zero =>
      have hloader : loop.unasked.loader = loop.loader.unasked := rfl
      simp only [pass, work, hloader, Loader.next?_unasked]
      cases loop.loader.next? (resolver.settle limit) event with
      | none => rfl
      | some loader => cases event <;> rfl

theorem foldl_unasked
    (jobs : List (Nat × Loader.Event))
    (loop : Loop) :
    jobs.foldl (pass resolver limit) loop.unasked =
      (jobs.foldl (pass resolver limit) loop).unasked := by
  induction jobs generalizing loop with
  | nil => rfl
  | cons job rest ih => rw [List.foldl_cons, pass_unasked, ih, List.foldl_cons]

theorem tick_unasked
    (loop : Loop) :
    loop.unasked.tick resolver limit = (loop.tick resolver limit).unasked := by
  have hqueue : loop.unasked.queue = loop.queue := rfl
  unfold tick
  rw [hqueue]
  split
  · rfl
  · exact foldl_unasked resolver limit loop.queue { loop with queue := [] }

theorem run_unasked
    (ticks : Nat)
    (loop : Loop) :
    run resolver limit ticks loop.unasked = (run resolver limit ticks loop).unasked := by
  induction ticks generalizing loop with
  | zero => rfl
  | succ ticks ih =>
      have hdone : loop.unasked.loader.isDone = loop.loader.isDone := rfl
      rw [run, run, hdone, tick_unasked, ih]
      split <;> rfl

theorem complete_unasked
    (r : TypeRegistry)
    (groups : List (List String)) :
    complete resolver limit r.unasked groups = (complete resolver limit r groups).unasked := by
  have hstart : start r.unasked groups = (start r groups).unasked := rfl
  rw [complete, hstart, run_unasked]
  rfl

end Unasked

end Loop

theorem Pending.Turns.unasked
    {p : Pending}
    {r r' : TypeRegistry}
    {state : BatchState}
    (h : p.Turns r r' state) :
    p.Turns r.unasked r'.unasked state :=
  Run.Turn.unasked h

namespace Moment

/-- The moment with nothing remembered. -/
def unasked (s : Moment) : Moment :=
  { s with registry := s.registry.unasked }

variable {s s' : Moment}

/-- A change does the same with nothing remembered. -/
theorem Change.unasked
    (h : s.Change s') :
    s.unasked.Change s'.unasked := by
  cases h with
  | begins resolver limit identifiers => exact .begins resolver limit identifiers
  | @goesOn r r' before after p next ht =>
      exact .goesOn ht.unasked
  | @ends r r' before after p result ht =>
      exact .ends ht.unasked
  | @promotes r r' ps name hp =>
      have hpromote : r.unasked.promote name = .ok r'.unasked := by
        rw [Registry.promote_unasked, hp]
        rfl
      exact .promotes hpromote

/-- A question changes nothing else than what is remembered. -/
theorem unasked_of_asks
    {r r' : TypeRegistry}
    {ps : List Pending}
    {inquiry : Inquiry}
    {reply : Reply}
    (h : inquiry.query r = .ok (reply, r')) :
    unasked ⟨r', ps⟩ = unasked ⟨r, ps⟩ := by
  obtain ⟨hc, hg⟩ := inquiry.steady_query _ _ _ h
  simp [unasked, Registry.unasked, hc, hg]

/-- The changes on the way to a moment lead to the same moment without the questions between them. -/
theorem Reached.quiet
    (h : s.Reached) :
    Relation.ReflTransGen Change start s.unasked := by
  induction h with
  | refl => exact .refl
  | tail _ hstep ih =>
      cases hstep with
      | changes hc => exact ih.tail hc.unasked
      | asks ha =>
          rw [unasked_of_asks ha]
          exact ih

end Moment

end TypeGraph
