import TypeGraph.Loading.Flight
import TypeGraph.Loading.Run

/-!
# Loaders

Several loads share a loader: its registry, and what is in flight.  Each of them asks for its wave, waits
for the resolutions that it is given, and has its turn: with the manifests when all of them are answered
with one, or with a failure as soon as one of them has failed.  A load that ends, in whatever way, prunes
what it has asked for.

The events of a loader may come in many orders, which depend on how long the resolver takes and on which
load is resumed first.  `Loader.next?` says what an event does where it can happen, for every order.
-/

namespace TypeGraph

/-- A load: its batch, and the numbers of the resolutions that it waits for once its wave is asked
for. -/
structure Load where
  state : BatchState
  awaited : Option (List Nat)

/-- The registry, what is in flight, the loads, and the positions of those that have ended, in the order
of their ends. -/
structure Loader where
  registry : TypeRegistry
  flight : Flight
  loads : List Load
  ended : List Nat

namespace Loader

/-- What happens to a loader. -/
inductive Event where
  | requests (load : Nat)
  | answers (resolution : Nat)
  | forgets (resolution : Nat)
  | resumes (load : Nat)
  | fails (load resolution : Nat)
  deriving DecidableEq, Repr

/-- A load that has not asked for its roots. -/
def opening (c : Catalog) (identifiers : List String) : Load :=
  ⟨.active (.start c identifiers), none⟩

/-- Several loads that begin together, with what is in flight. -/
def start (registry : TypeRegistry) (flight : Flight) (groups : List (List String)) : Loader :=
  ⟨registry, flight, groups.map (opening registry.catalog), []⟩

/-- A load asks for its wave. -/
def request? (s : Loader) (i : Nat) : Option Loader :=
  match s.loads[i]? with
  | some ⟨.active b, none⟩ =>
      let (flight, numbers) := s.flight.fetchAll b.wave
      some { s with flight := flight, loads := s.loads.set i ⟨.active b, some numbers⟩ }
  | _ => none

/-- A load has had its turn. -/
def turned (s : Loader) (i : Nat) (b : Batch) : TypeRegistry × BatchState → Loader
  | (registry, .active next) =>
      { s with registry := registry, loads := s.loads.set i ⟨.active next, none⟩ }
  | (registry, .ended result) =>
      { registry := registry
        flight := s.flight.prune b.touched
        loads := s.loads.set i ⟨.ended result, none⟩
        ended := s.ended ++ [i] }

/-- A load resumes with the manifests of its wave. -/
def resume? (s : Loader) (i : Nat) : Option Loader :=
  match s.loads[i]? with
  | some ⟨.active b, some numbers⟩ =>
      match numbers.mapM s.flight.manifestOf with
      | some manifests => some (s.turned i b (Run.proceed s.registry b manifests))
      | none => none
  | _ => none

/-- A load fails with the failure of a resolution that it waits for. -/
def fail? (s : Loader) (i number : Nat) : Option Loader :=
  match s.loads[i]?, s.flight.failureOf number with
  | some ⟨.active b, some numbers⟩, some failure =>
      if numbers.contains number then
        some (s.turned i b (s.registry, .ended (.error failure)))
      else none
  | _, _ => none

/-- What an event does, where it can happen, with the answers of a resolver. -/
def next? (answer : String → Except Failure Manifest) (s : Loader) : Event → Option Loader
  | .requests i => s.request? i
  | .answers number =>
      (s.flight.answer? answer number).map fun flight => { s with flight := flight }
  | .forgets number => (s.flight.forget? number).map fun flight => { s with flight := flight }
  | .resumes i => s.resume? i
  | .fails i number => s.fail? i number

/-- No load is on its way. -/
def isDone (s : Loader) : Bool :=
  s.loads.all fun load =>
    match load.state with
    | .active _ => false
    | .ended _ => true

/-- How far the batches of the loads have come. -/
def states (s : Loader) : List BatchState :=
  s.loads.map Load.state

/-- The results of the loads, in order. -/
def results (s : Loader) : List (Except Failure (List Manifest)) :=
  s.states.map Run.result

/-- The identifiers that the resolver was asked for, in order. -/
def requests (s : Loader) : List String :=
  s.flight.requests

end Loader
end TypeGraph
