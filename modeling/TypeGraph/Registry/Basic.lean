import TypeGraph.Registry.Catalog
import TypeGraph.Registry.Memo

/-!
# Registries

A registry is a catalog with a generation, which every commit raises, and with the memo tables of
the questions asked about it.  A commit that fails keeps the generation and the memo tables, but not
what it had already written to the catalog.

**Results.**
* `Registry.catalog_commit`, `Registry.commit_ok`, `Registry.commit_error`: what a commit changes.
* `Registry.remember_known`, `Registry.remember_new`: a remembered answer is not computed again.
-/

namespace TypeGraph

/-- A catalog with its generation and its memo tables. -/
structure Registry (κ : Type) (ν : κ → Type) where
  catalog : Catalog
  generation : Nat
  memo : Memo κ ν

namespace Registry

variable {κ : Type} {ν : κ → Type}

/-- Nothing is committed and nothing is remembered. -/
def empty : Registry κ ν :=
  ⟨.empty, 0, .empty⟩

/-- Publish a batch of assemblies and make some names roots. -/
def commit (r : Registry κ ν) (batch : List Manifest) (roots : List String) :
    Registry κ ν × Except Failure Unit :=
  match r.catalog.commit batch roots with
  | (catalog, .error failure) => ({ r with catalog := catalog }, .error failure)
  | (catalog, .ok _) => (⟨catalog, r.generation + 1, r.memo.nextGeneration⟩, .ok ())

/-- Make a committed assembly a root. -/
def promote (r : Registry κ ν) (name : String) : Except Failure (Registry κ ν) :=
  match r.catalog.promote name with
  | .error failure => .error failure
  | .ok catalog => .ok { r with catalog := catalog }

/-- A commit publishes the catalog of the batch. -/
theorem catalog_commit
    (r : Registry κ ν)
    (batch : List Manifest)
    (roots : List String) :
    (r.commit batch roots).1.catalog = (r.catalog.commit batch roots).1 := by
  unfold commit
  split <;> simp_all

/-- A commit that succeeds raises the generation by one and forgets the answers of the last one. -/
theorem commit_ok
    {r : Registry κ ν}
    {batch : List Manifest}
    {roots : List String}
    {catalog : Catalog}
    (h : r.catalog.commit batch roots = (catalog, .ok ())) :
    r.commit batch roots = (⟨catalog, r.generation + 1, r.memo.nextGeneration⟩, .ok ()) := by
  simp [commit, h]

/-- A commit that fails keeps the generation and the memo tables. -/
theorem commit_error
    {r : Registry κ ν}
    {batch : List Manifest}
    {roots : List String}
    {catalog : Catalog}
    {failure : Failure}
    (h : r.catalog.commit batch roots = (catalog, .error failure)) :
    r.commit batch roots = ({ r with catalog := catalog }, .error failure) := by
  simp [commit, h]

/-- Questions about a registry, which may fail and may add to what is remembered. -/
abbrev Asking (κ : Type) (ν : κ → Type) := StateT (Registry κ ν) (Except Failure)

section Recall

variable [DecidableEq κ]

/-- The remembered answer to a question, or else the computed one, which is then remembered. -/
def remember (lifetime : Lifetime) (question : κ) (compute : Asking κ ν (ν question)) :
    Asking κ ν (ν question) := fun r =>
  match r.memo.find? lifetime question with
  | some answer => .ok (answer, r)
  | none =>
      match compute r with
      | .error failure => .error failure
      | .ok (answer, after) =>
          .ok (answer, { after with memo := after.memo.store lifetime question answer })

/-- A remembered answer is not computed again. -/
theorem remember_known
    {lifetime : Lifetime}
    {question : κ}
    {compute : Asking κ ν (ν question)}
    {r : Registry κ ν}
    {answer : ν question}
    (h : r.memo.find? lifetime question = some answer) :
    remember lifetime question compute r = .ok (answer, r) := by
  simp [remember, h]

/-- An answer that is not remembered is computed and then remembered. -/
theorem remember_new
    {lifetime : Lifetime}
    {question : κ}
    {compute : Asking κ ν (ν question)}
    {r after : Registry κ ν}
    {answer : ν question}
    (h : r.memo.find? lifetime question = none)
    (hc : compute r = .ok (answer, after)) :
    remember lifetime question compute r =
      .ok (answer, { after with memo := after.memo.store lifetime question answer }) := by
  simp [remember, h, hc]

end Recall

end Registry
end TypeGraph
