import TypeGraph.Loading.Loader
import TypeGraph.Resolver.Basic

/-!
# The event loop

The loads of a loader are run by a loop with one queue.  In each tick the queue is worked off from its
front, and what this leads to is queued for later ticks: an answer takes a tick more than a request, and
a load that was waiting for it hears of it some ticks later, after the loads that have been waiting for
longer.  Answers that only come with the limit come when nothing else is left to do.

An event that cannot happen any more when its time has come is passed over: a load may be told of the
failures of several resolutions, and fails with the first of them.
-/

namespace TypeGraph

/-- A loader with the loads that have asked for their waves, in the order in which they did, and the
events that are queued, each with the number of ticks to wait. -/
structure Loop where
  loader : Loader
  line : List Nat
  queue : List (Nat × Loader.Event)

namespace Loop

open Loader (Event)

/-- The loads begin, each by asking for its roots. -/
def start (registry : TypeRegistry) (groups : List (List String)) : Loop :=
  { loader := .start registry .empty groups
    line := []
    queue := (List.range groups.length).map fun i => (0, .requests i) }

/-- Every resolution that is awaited has its manifest. -/
def isReady (f : Flight) (numbers : List Nat) : Bool :=
  numbers.all fun number => (f.manifestOf number).isSome

/-- What a load hears of a resolution that it may be waiting for. -/
def hears (s : Loader) (number i : Nat) : List (Nat × Event) :=
  match s.loads[i]? with
  | some ⟨.active _, some numbers⟩ =>
      if numbers.contains number then
        if (s.flight.failureOf number).isSome then [(3, .fails i number)]
        else if isReady s.flight numbers then [(3, .resumes i)]
        else []
      else []
  | _ => []

/-- What comes of a resolution that a load has just asked for. -/
def expects (resolver : Resolver) (limit : Option Number) (s : Loader) (i number : Nat) :
    List (Nat × Event) :=
  match s.flight.resolutions[number]? with
  | some ⟨identifier, none⟩ =>
      if resolver.isLate limit identifier then [] else [(1, .answers number)]
  | some ⟨_, some (.error _)⟩ => [(1, .fails i number)]
  | _ => []

/-- What an event leads to, in the state after it. -/
def following (resolver : Resolver) (limit : Option Number) (line : List Nat) (s : Loader) :
    Event → List (Nat × Event)
  | .requests i =>
      match s.loads[i]? with
      | some ⟨_, some numbers⟩ =>
          numbers.flatMap (expects resolver limit s i) ++
            if isReady s.flight numbers then [(1, .resumes i)] else []
      | _ => []
  | .answers number => (0, .forgets number) :: line.flatMap (hears s number)
  | .forgets _ => []
  | .resumes i | .fails i _ =>
      match s.loads[i]? with
      | some ⟨.active _, none⟩ => [(0, .requests i)]
      | _ => []

/-- The loads in line after an event. -/
def lineAfter (line : List Nat) : Event → List Nat
  | .requests i => line.erase i ++ [i]
  | _ => line

section Ticks

variable (resolver : Resolver) (limit : Option Number)

/-- An event whose time has come. -/
def work (loop : Loop) (event : Event) : Loop :=
  match loop.loader.next? (resolver.settle limit) event with
  | none => loop
  | some loader =>
      let line := lineAfter loop.line event
      ⟨loader, line, loop.queue ++ following resolver limit line loader event⟩

/-- A queued event happens, or is queued again with a tick less. -/
def pass (loop : Loop) : Nat × Event → Loop
  | (0, event) => loop.work resolver limit event
  | (ticks + 1, event) => { loop with queue := loop.queue ++ [(ticks, event)] }

/-- One tick.  With nothing in the queue the answers come that were late. -/
def tick (loop : Loop) : Loop :=
  match loop.queue with
  | [] =>
      { loop with queue := loop.loader.flight.pending.map fun number => (0, .answers number) }
  | queue => queue.foldl (pass resolver limit) { loop with queue := [] }

/-- At most some ticks, until every load has ended. -/
def run : Nat → Loop → Loop
  | 0, loop => loop
  | ticks + 1, loop => if loop.loader.isDone then loop else run ticks (loop.tick resolver limit)

end Ticks

/-- Every wave of dependencies uses up a name of the resolver, so a load has at most a turn for its
roots, one for each name, and one for a wave that fails; and between two turns the queue runs dry at
most once. -/
def enough (resolver : Resolver) (groups : List (List String)) : Nat :=
  14 * (groups.length * (resolver.names.length + 2) + 1)

/-- Load several groups together, with nothing in flight. -/
def complete (resolver : Resolver) (limit : Option Number) (registry : TypeRegistry)
    (groups : List (List String)) : Loader :=
  (run resolver limit (enough resolver groups) (start registry groups)).loader

end Loop
end TypeGraph
