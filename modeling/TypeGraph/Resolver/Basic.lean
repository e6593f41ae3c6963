import TypeGraph.Failure
import TypeGraph.Manifest.Document

/-!
# Resolvers

A resolver answers identifiers with manifests, or with the reason why there is none.  It also lists
names such that every identifier that it answers with a manifest of that very name is among them, so
that only finitely many dependencies can ever be found.

**Results.**
* `Resolver.answer_of_settle`: a manifest that is found is decoded from an answer.
* `Resolver.mem_names_of_settle`: a dependency that is found is among the listed names.
-/

namespace TypeGraph

/-- What a resolver answers. -/
inductive Answer where
  | source (source : Source)
  | failure (failure : Failure)
  | ioError (reason : String)
  | timeout
  | never

/-- A resolver; one that waits has no answer at once. -/
structure Resolver where
  answer : String → Answer
  waits : Bool
  names : List String
  complete : ∀ identifier source m,
    answer identifier = .source source → Manifest.decode source = .ok m → m.name = identifier →
      identifier ∈ names

namespace Resolver

/-- A limit of zero or less leaves no time at all. -/
def noTime : Option Number → Bool
  | some limit => limit.isNonpositive
  | none => false

/-- A limit that is not a number has passed as soon as a resolver waits. -/
def passed : Option Number → Bool
  | some (.real .nan) => true
  | limit => noTime limit

/-- The limit passes before a resolver answers anything. -/
def isTooSlow (r : Resolver) (limit : Option Number) : Bool :=
  noTime limit || (r.waits && passed limit)

/-- A limit that waiting does not even begin with: a positive integer without a nearest real, or one of
zero or less that cannot be shown. -/
def limitFault? : Option Number → Option Failure
  | some (.int n) =>
      if n ≤ 0 then if Json.isLong n then some (.tooManyDigits .shown) else none
      else if (Binary64.ofInt? n).isNone then some .limitTooLarge
      else none
  | _ => none

/-- The manifest that a resolver finds for an identifier within a limit.  Where it never answers and there
is no limit, the failure stands for a load that has no end. -/
def settle (r : Resolver) (limit : Option Number) (identifier : String) :
    Except Failure Manifest :=
  match limitFault? limit with
  | some failure => .error failure
  | none =>
      if r.isTooSlow limit then .error (.timedOut identifier limit)
      else
        match r.answer identifier with
        | .source source => (Manifest.decode source).mapError .ofMalformed
        | .failure failure => .error failure
        | .ioError reason => .error (.unreadable identifier reason)
        | .timeout => .error (.timedOut identifier limit)
        | .never =>
            match limit with
            | some _ => .error (.timedOut identifier limit)
            | none => .error (.unanswered identifier)

/-- The answer only comes when the limit has passed. -/
def isLate (r : Resolver) (limit : Option Number) (identifier : String) : Bool :=
  match r.answer identifier with
  | .never => !passed limit
  | _ => false

/-- A manifest that a resolver finds is decoded from its answer. -/
theorem answer_of_settle
    {r : Resolver}
    {limit : Option Number}
    {identifier : String}
    {m : Manifest}
    (h : r.settle limit identifier = .ok m) :
    ∃ source, r.answer identifier = .source source ∧ Manifest.decode source = .ok m := by
  unfold settle at h
  split at h
  · cases h
  · split at h
    · cases h
    · split at h <;> (try split at h) <;> try cases h
      rename_i source hs
      refine ⟨source, hs, ?_⟩
      cases hd : Manifest.decode source with
      | error fault =>
          rw [hd] at h
          cases h
      | ok found =>
          rw [hd] at h
          cases h
          rfl

/-- A dependency that is found is among the listed names. -/
theorem mem_names_of_settle
    {r : Resolver}
    {limit : Option Number}
    {identifier : String}
    {m : Manifest}
    (h : r.settle limit identifier = .ok m)
    (hname : m.name = identifier) :
    identifier ∈ r.names := by
  obtain ⟨source, hs, hd⟩ := answer_of_settle h
  exact r.complete identifier source m hs hd hname

end Resolver
end TypeGraph
