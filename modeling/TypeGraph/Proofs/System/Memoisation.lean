import Mathlib
import TypeGraph.Proofs.System.Alike
import TypeGraph.Resolver.Table

/-!
# Memo tables that nobody notices

At every moment of a type system, whatever is on its way to it and whatever was asked before, a
question is answered as it would be with empty memo tables.  A lasting answer stays right for ever, and
the answers of a generation are gone when the committed types have changed.

**Results.**
* `Moment.Step.keeps_lasting`: a step keeps the lasting answers.
* `Moment.Step.forgets_current`: a step that commits types forgets the others.
* `TypeSystem.memoisation_invisible`: memo tables change no answer.
-/

namespace TypeGraph

namespace Moment

section Tables

variable {s s' : Moment}

/-- A step keeps the lasting answers. -/
theorem Step.keeps_lasting
    (hs : s.Step s')
    (h : s.Orderly)
    {q : Question}
    {a : q.Answer}
    (ha : s.registry.memo.find? .lasting q = some a) :
    s'.registry.memo.find? .lasting q = some a := by
  cases hs with
  | changes hc =>
      cases (hc.becomes h.coherent h.lawful).1 with
      | stays rootNames he =>
          rw [he]
          exact ha
      | published batch roots hp =>
          obtain ⟨rootNames, he, -⟩ := hp
          rw [he]
          exact ha
  | asks hq => exact (h.asks hq).1.keeps _ _ _ ha

/-- A step that changes the committed types forgets the answers of the generation. -/
theorem Step.forgets_current
    (hs : s.Step s')
    (h : s.Orderly)
    (hne : s'.registry.catalog.types ≠ s.registry.catalog.types)
    (q : Question) :
    s'.registry.memo.find? .current q = none := by
  cases hs with
  | changes hc =>
      cases (hc.becomes h.coherent h.lawful).1 with
      | stays rootNames he =>
          rw [he] at hne
          exact absurd rfl hne
      | published batch roots hp =>
          obtain ⟨rootNames, he, -⟩ := hp
          rw [he]
          rfl
  | asks hq =>
      rw [(h.asks hq).1.catalog_eq] at hne
      exact absurd rfl hne

/-- Steps keep the lasting answers. -/
theorem Orderly.keeps_lasting
    (h : s.Orderly)
    (hs : Relation.ReflTransGen Step s s')
    {q : Question}
    {a : q.Answer}
    (ha : s.registry.memo.find? .lasting q = some a) :
    s'.registry.memo.find? .lasting q = some a := by
  induction hs with
  | refl => exact ha
  | tail hbefore hstep ih => exact hstep.keeps_lasting (h.steps hbefore) ih

/-- A question is answered alike with nothing remembered. -/
theorem Orderly.query_unasked
    (h : s.Orderly)
    (i : Inquiry) :
    (i.query s.registry.unasked).map Prod.fst = i.plain s.registry.catalog := by
  have hunasked : s.unasked.Orderly :=
    ⟨h.coherent, h.lawful, Registry.sincere_of_memo_empty rfl⟩
  exact hunasked.query_eq_plain i

end Tables

end Moment

/-- A moment is reached by any interleaving of the turns of loads, failed or not, with promotions of
roots and with questions.

At every moment that is reached
* every question has the answer that it has with empty memo tables, which is the one computed from the
  committed types alone;
* every remembered answer is the right one, and a lasting one is still remembered and still right after
  any further steps;
* a step that changes the committed types leaves nothing in the table of the generation;
* without the questions on the way the moment is reached with the same committed types and the same
  loads on their way.

Sessions reach such moments, and whatever is asked in one its further outcomes are the same. -/
theorem TypeSystem.memoisation_invisible :
    (∀ s : Moment, s.Reached →
      (∀ i : Inquiry,
        (i.query s.registry).map Prod.fst = (i.query s.registry.unasked).map Prod.fst ∧
        (i.query s.registry.unasked).map Prod.fst = i.plain s.registry.catalog) ∧
      (∀ lifetime q a, s.registry.memo.find? lifetime q = some a →
        q.lifetime = lifetime ∧ q.answer s.registry.catalog = .ok a) ∧
      (∀ s', Relation.ReflTransGen Moment.Step s s' →
        ∀ q a, s.registry.memo.find? .lasting q = some a →
          s'.registry.memo.find? .lasting q = some a ∧ q.answer s'.registry.catalog = .ok a) ∧
      (∀ s', s.Step s' → s'.registry.catalog.types ≠ s.registry.catalog.types →
        ∀ q, s'.registry.memo.find? .current q = none) ∧
      Relation.ReflTransGen Moment.Change Moment.start s.unasked) ∧
    ∀ earlier later : List Action,
      (after earlier).moment.Reached ∧
      ((after earlier).performAll later).2 =
        ((after (earlier.filter fun action => !action.isQuestion)).performAll later).2 := by
  refine ⟨fun s hs => ?_, fun earlier later => ⟨reached_after earlier, ?_⟩⟩
  · have h := hs.orderly
    refine ⟨fun i => ?_, h.sincere, ?_, fun s' hstep => hstep.forgets_current h, hs.quiet⟩
    · exact ⟨(h.query_eq_plain i).trans (h.query_unasked i).symm, h.query_unasked i⟩
    · intro s' hsteps q a ha
      have hkept := h.keeps_lasting hsteps ha
      exact ⟨hkept, ((h.steps hsteps).sincere _ _ _ hkept).2⟩
  · exact performAll_after_filter earlier later

/-- A table with a library that declares an interface and an application that implements it. -/
def implementedInterface : AnswerTable :=
  [("app", .source (.value (.object [("name", .string "app"), ("version", .string "1"),
    ("dependencies", .array [.string "lib"]),
    ("types", .object [("app.Circle", .object [("kind", .string "class"),
      ("interfaces", .array [.string "lib.Shape"])])])]))),
   ("lib", .source (.value (.object [("name", .string "lib"), ("version", .string "1"),
    ("types", .object [("lib.Shape", .object [("kind", .string "interface")])])])))]

/-- The library is loaded and its interface asked about. -/
def askedInterface : TypeSystem :=
  .after [.load (AnswerTable.resolver implementedInterface) none "lib",
    .ask (.implementations (.string "lib.Shape")), .ask (.dataType (.string "lib.Shape"))]

/-- The application is loaded after that. -/
def grownInterface : TypeSystem :=
  (askedInterface.perform (.load (AnswerTable.resolver implementedInterface) none "app")).1

/-- The interface is asked about before the class that implements it is loaded; then the lasting answer
is still there, and the implementations are computed again. -/
theorem TypeSystem.memoisation_invisible_of_implementedInterface :
    askedInterface.moment.Reached ∧
      askedInterface.registry.memo.find? .current (.implementations "lib.Shape") =
        some ["lib.Shape"] ∧
      askedInterface.registry.memo.find? .lasting (.dataType "lib.Shape") = some true ∧
      grownInterface.moment.Reached ∧
      grownInterface.registry.memo.find? .lasting (.dataType "lib.Shape") = some true ∧
      (Question.dataType "lib.Shape").answer grownInterface.catalog = .ok true ∧
      ((Inquiry.implementations (.string "lib.Shape")).query grownInterface.registry).map Prod.fst =
        .ok (.names ["app.Circle", "lib.Shape"]) := by
  have hcurrent : askedInterface.registry.memo.find? .current (.implementations "lib.Shape") =
      some ["lib.Shape"] := by
    cbv
  have hlasting : askedInterface.registry.memo.find? .lasting (.dataType "lib.Shape") =
      some true := by
    cbv
  have hplain : (Inquiry.implementations (.string "lib.Shape")).plain grownInterface.catalog =
      .ok (.names ["app.Circle", "lib.Shape"]) := by
    cbv
  obtain ⟨hmoments, hsessions⟩ := memoisation_invisible
  have hasked : askedInterface.moment.Reached := (hsessions _ []).1
  have hsteps : Relation.ReflTransGen Moment.Step askedInterface.moment grownInterface.moment :=
    (performAll_atRest _).perform_steps _
  have hgrown : grownInterface.moment.Reached := hasked.trans hsteps
  obtain ⟨-, -, hkept, -⟩ := hmoments _ hasked
  obtain ⟨hanswer, -⟩ := hmoments _ hgrown
  obtain ⟨hstays, hright⟩ := hkept _ hsteps _ _ hlasting
  obtain ⟨hsame, hfresh⟩ := hanswer (.implementations (.string "lib.Shape"))
  exact ⟨hasked, hcurrent, hlasting, hgrown, hstays, hright, hsame.trans (hfresh.trans hplain)⟩

end TypeGraph
