/-!
# Memo tables

Two tables remember the answers to questions.  An answer in the lasting table is kept for ever, and
one in the current table until the next generation.  The type of an answer depends on its question,
so a table never mixes up answers of different kinds.

**Results.**
* `Table.find?_store_self`, `Table.find?_store_of_ne`: what a table remembers after an answer is
  stored.
* `Memo.find?_store_self`, `Memo.find?_store_of_ne`: the same of the two tables.
* `Memo.find?_lasting_nextGeneration`, `Memo.find?_current_nextGeneration`: what is left after a
  generation.
-/

namespace TypeGraph

/-- Questions with their answers. -/
abbrev Table (κ : Type) (ν : κ → Type) := List (Sigma ν)

namespace Table

variable {κ : Type} {ν : κ → Type} [DecidableEq κ]

/-- The answer to a question. -/
def find? (question : κ) : Table κ ν → Option (ν question)
  | [] => none
  | ⟨known, answer⟩ :: rest =>
      if h : known = question then some (h ▸ answer) else find? question rest

/-- Remember an answer. -/
def store (table : Table κ ν) (question : κ) (answer : ν question) : Table κ ν :=
  ⟨question, answer⟩ :: table

@[simp] theorem find?_nil (question : κ) : find? question ([] : Table κ ν) = none := rfl

@[simp] theorem find?_store_self
    (table : Table κ ν)
    (question : κ)
    (answer : ν question) :
    find? question (store table question answer) = some answer := by
  simp [find?, store]

theorem find?_store_of_ne
    (table : Table κ ν)
    {question other : κ}
    (answer : ν question)
    (h : question ≠ other) :
    find? other (store table question answer) = find? other table := by
  simp [find?, store, h]

end Table

/-- How long an answer is kept. -/
inductive Lifetime where
  | lasting
  | current
  deriving DecidableEq, Repr

/-- The two tables. -/
structure Memo (κ : Type) (ν : κ → Type) where
  lasting : Table κ ν
  current : Table κ ν

namespace Memo

variable {κ : Type} {ν : κ → Type} [DecidableEq κ]

/-- Nothing is remembered. -/
def empty : Memo κ ν :=
  ⟨[], []⟩

/-- The answer that is remembered in one of the tables. -/
def find? (memo : Memo κ ν) (lifetime : Lifetime) (question : κ) : Option (ν question) :=
  match lifetime with
  | .lasting => memo.lasting.find? question
  | .current => memo.current.find? question

/-- Remember an answer in one of the tables. -/
def store (memo : Memo κ ν) (lifetime : Lifetime) (question : κ) (answer : ν question) :
    Memo κ ν :=
  match lifetime with
  | .lasting => { memo with lasting := memo.lasting.store question answer }
  | .current => { memo with current := memo.current.store question answer }

/-- Forget the answers of the current generation. -/
def nextGeneration (memo : Memo κ ν) : Memo κ ν :=
  { memo with current := [] }

@[simp] theorem find?_store_self
    (memo : Memo κ ν)
    (lifetime : Lifetime)
    (question : κ)
    (answer : ν question) :
    (memo.store lifetime question answer).find? lifetime question = some answer := by
  cases lifetime <;> simp [store, find?]

theorem find?_store_of_ne
    (memo : Memo κ ν)
    {lifetime lifetime' : Lifetime}
    {question other : κ}
    (answer : ν question)
    (h : lifetime ≠ lifetime' ∨ question ≠ other) :
    (memo.store lifetime question answer).find? lifetime' other = memo.find? lifetime' other := by
  cases lifetime <;> cases lifetime' <;>
    simp_all [store, find?, Table.find?_store_of_ne]

/-- A new generation keeps the lasting answers. -/
@[simp] theorem find?_lasting_nextGeneration
    (memo : Memo κ ν)
    (question : κ) :
    memo.nextGeneration.find? .lasting question = memo.find? .lasting question := rfl

/-- A new generation forgets the others. -/
@[simp] theorem find?_current_nextGeneration
    (memo : Memo κ ν)
    (question : κ) :
    memo.nextGeneration.find? .current question = none := rfl

end Memo
end TypeGraph
