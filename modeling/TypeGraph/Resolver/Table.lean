import TypeGraph.Resolver.Basic

/-!
# Answer tables

A table answers the identifiers it lists; every other identifier is not registered.  Its answers come
at once.
-/

namespace TypeGraph

/-- Answers by identifier; the first one listed counts. -/
abbrev AnswerTable := List (String × Answer)

namespace AnswerTable

/-- Take an identifier out of the table. -/
def erase (table : AnswerTable) (identifier : String) : AnswerTable :=
  table.filter fun entry => entry.1 != identifier

/-- Set the answer to an identifier. -/
def set (table : AnswerTable) (identifier : String) (answer : Answer) : AnswerTable :=
  (identifier, answer) :: erase table identifier

/-- The answer to an identifier. -/
def answer (table : AnswerTable) (identifier : String) : Answer :=
  match table.lookup identifier with
  | some answer => answer
  | none => .failure (.notRegistered identifier)

theorem mem_of_answer
    {table : AnswerTable}
    {identifier : String}
    {source : Source}
    (h : answer table identifier = .source source) :
    identifier ∈ table.map Prod.fst := by
  unfold answer at h
  induction table with
  | nil => simp at h
  | cons entry rest ih =>
      obtain ⟨known, old⟩ := entry
      by_cases hk : identifier = known
      · simp [hk]
      · have hk' : (identifier == known) = false := by simpa using hk
        simp only [List.lookup_cons, hk'] at h
        simpa using Or.inr (by simpa using ih h)

/-- The resolver of a table. -/
def resolver (table : AnswerTable) : Resolver :=
  { answer := answer table
    waits := false
    names := table.map Prod.fst
    complete := fun _ _ _ h _ _ => mem_of_answer h }

end AnswerTable
end TypeGraph
