import TypeGraph.Proofs.Manifest.WellFormed
import TypeGraph.Proofs.System.Chronicle

/-!
# Answers at a moment

What is asked at a moment that is reached is answered from the catalog, whatever was remembered before,
and about types that were read from manifests.  So whatever is known of a coherent catalog and of types
that were read is known of the answers.

**Results.**
* `Moment.Orderly.answer_eq`: an answer is the one of the catalog.
* `Moment.Reached.wellFormed`: the committed types are well formed.
-/

namespace TypeGraph
namespace Moment

/-- The answer to a query at a moment. -/
def answer {α : Type} (s : Moment) (q : Query α) : Except Failure α :=
  (q s.registry).map Prod.fst

section Answers

variable {s : Moment} {t : TypeDef}

/-- A committed type is found by its full name. -/
theorem Orderly.typeNamed
    (h : s.Orderly)
    (ht : t ∈ s.registry.catalog.types) :
    s.registry.catalog.typeNamed t.fqn = .ok t :=
  h.coherent.typeNamed_iff.2 ⟨ht, rfl⟩

/-- A query is answered from the catalog. -/
theorem Orderly.answer_eq
    {α : Type}
    {q : Query α}
    {plain : Except Failure α}
    (h : s.Orderly)
    (hq : q.Recalls s.registry.catalog plain) :
    s.answer q = plain :=
  hq.map_fst h.sincere

/-- The committed types are well formed, as they were read from manifests. -/
theorem Reached.wellFormed
    (h : s.Reached)
    (ht : t ∈ s.registry.catalog.types) :
    t.WellFormed := by
  obtain ⟨us, namings, -, hchronicle⟩ := h.chronicle
  obtain ⟨m, hm, htm⟩ := h.orderly.coherent.mem_types_iff.1 ht
  obtain ⟨source, hdecode⟩ := hchronicle.recorded.decoded m hm
  exact Manifest.wellFormed_types_of_decode hdecode t htm

end Answers

end Moment
end TypeGraph
