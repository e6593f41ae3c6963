import TypeGraph.Proofs.Registry.Commit

/-!
# What a registry has been told

What a registry answers is determined by what has been done to it.  A lasting question is answered with
what was computed for it first of all, and a question of the generation with what was computed for it first
since the last commit that succeeded; a question of one sort is never answered with what was computed for
the other.  The generation is the number of the commits that succeeded, and a commit succeeds when each of
its roots is an assembly that it or an earlier commit has brought.

**Results.**
* `Registry.commit_of_known`, `Registry.commit_of_unknown`: what a commit does when its roots are known, and
  when one of them is not.
* `Registry.StandsFor.step`: what one step does to a registry that stands for a history.
* `Registry.memo_refines_history`: every sequence of steps is answered as its history says.
-/

namespace TypeGraph

namespace Catalog

variable {c : Catalog} {name : String}

/-- Writing an assembly adds its name. -/
theorem exists_putAssembly_iff
    {m : Manifest}
    {known : List Manifest} :
    (∃ k ∈ putAssembly m known, k.name = name) ↔ (∃ k ∈ known, k.name = name) ∨ m.name = name := by
  induction known with
  | nil => simp [putAssembly]
  | cons k rest ih =>
      rw [putAssembly]
      split
      · rename_i hsame
        have hname : k.name = m.name := by simpa using hsame
        simp only [List.exists_mem_cons_iff, hname]
        exact ⟨Or.inl, fun h => h.elim id Or.inl⟩
      · rw [List.exists_mem_cons_iff, List.exists_mem_cons_iff, ih, or_assoc]

/-- After a batch is written an assembly is committed if it was so before or is in the batch. -/
theorem hasAssembly_foldl_add
    {batch : List Manifest} :
    (batch.foldl add c).hasAssembly name = true ↔
      c.hasAssembly name = true ∨ name ∈ batch.map Manifest.name := by
  induction batch generalizing c with
  | nil => simp
  | cons m rest ih =>
      rw [List.foldl_cons, ih, hasAssembly_iff, add, exists_putAssembly_iff, ← hasAssembly_iff,
        List.map_cons, List.mem_cons, or_assoc, @eq_comm _ m.name]

/-- A committed assembly becomes a root. -/
theorem exists_promote
    (h : c.hasAssembly name = true) :
    ∃ rootNames, c.promote name = .ok { c with rootNames := rootNames } := by
  unfold promote
  rw [h]
  cases c.isRoot name with
  | true => exact ⟨c.rootNames, rfl⟩
  | false => exact ⟨c.rootNames ++ [name], rfl⟩

/-- Names become roots up to the first that is not committed. -/
theorem promoteAll_of_unknown
    {names : List String}
    (h : names.find? (fun n => !c.hasAssembly n) = some name) :
    ∃ rootNames, c.promoteAll names =
      ({ c with rootNames := rootNames }, .error (.assemblyNotLoaded (.string name))) := by
  induction names generalizing c with
  | nil => cases h
  | cons n rest ih =>
      cases hn : c.hasAssembly n with
      | false =>
          simp only [List.find?_cons, hn, Bool.not_false, Option.some.injEq] at h
          subst h
          exact ⟨c.rootNames, by simp [promoteAll, promote, hn]⟩
      | true =>
          simp only [List.find?_cons, hn, Bool.not_true] at h
          obtain ⟨known, hp⟩ := exists_promote hn
          obtain ⟨rootNames, he⟩ := ih (c := { c with rootNames := known }) h
          exact ⟨rootNames, by rw [promoteAll, hp]; exact he⟩

end Catalog

namespace Registry

/-- What is done to a registry: a question is asked, with the answer that would be computed for it; a batch
is committed with some roots; or an assembly is made a root. -/
inductive Step (κ : Type) (ν : κ → Type) where
  | ask (lifetime : Lifetime) (question : κ) (computed : ν question)
  | commit (batch : List Manifest) (roots : List String)
  | promote (name : String)

/-- What comes of a step: an answer to a question, the generation that a commit has begun, nothing for a
new root, or a failure. -/
inductive Response (κ : Type) (ν : κ → Type) where
  | answer (question : κ) (answer : ν question)
  | generation (number : Nat)
  | promoted
  | failure (failure : Failure)

/-- What comes of a commit that succeeded. -/
def Response.isGeneration {κ : Type} {ν : κ → Type} : Response κ ν → Bool
  | .generation _ => true
  | _ => false

section Perform

variable {κ : Type} {ν : κ → Type} [DecidableEq κ]

/-- Perform one step. -/
def perform (r : Registry κ ν) : Step κ ν → Registry κ ν × Response κ ν
  | .ask lifetime question computed =>
      match remember lifetime question (pure computed) r with
      | .ok (answer, after) => (after, .answer question answer)
      | .error failure => (r, .failure failure)
  | .commit batch roots =>
      match r.commit batch roots with
      | (after, .ok _) => (after, .generation after.generation)
      | (after, .error failure) => (after, .failure failure)
  | .promote name =>
      match r.promote name with
      | .ok after => (after, .promoted)
      | .error failure => (r, .failure failure)

/-- Perform some steps one after the other. -/
def performAll (r : Registry κ ν) : List (Step κ ν) → Registry κ ν × List (Response κ ν)
  | [] => (r, [])
  | step :: rest =>
      let (after, response) := r.perform step
      let (final, responses) := after.performAll rest
      (final, response :: responses)

end Perform

/-- The steps so far, the last one first. -/
abbrev History (κ : Type) (ν : κ → Type) := List (Step κ ν)

/-- The names of the assemblies that a step brings. -/
def Step.names {κ : Type} {ν : κ → Type} : Step κ ν → List String
  | .commit batch _ => batch.map Manifest.name
  | _ => []

namespace History

variable {κ : Type} {ν : κ → Type}

/-- The assembly is in the batch of a commit, whether that succeeded or not. -/
def knows (history : History κ ν) (name : String) : Bool :=
  history.any fun step => step.names.contains name

/-- The first name among some that belongs to no assembly of a history. -/
def unknown? (history : History κ ν) (names : List String) : Option String :=
  names.find? fun name => !history.knows name

/-- The last step of a history is a commit that succeeded: one whose roots are all known. -/
def endsInCommit : History κ ν → Bool
  | .commit batch roots :: earlier =>
      (unknown? (.commit batch roots :: earlier : History κ ν) roots).isNone
  | _ => false

/-- The number of the commits that succeeded. -/
def commits : History κ ν → Nat
  | [] => 0
  | step :: earlier =>
      if endsInCommit (step :: earlier) then commits earlier + 1 else commits earlier

/-- The steps since the last commit that succeeded. -/
def sinceCommit : History κ ν → History κ ν
  | [] => []
  | step :: earlier =>
      if endsInCommit (step :: earlier) then [] else step :: sinceCommit earlier

/-- The steps whose answers are still remembered. -/
def span (history : History κ ν) : Lifetime → History κ ν
  | .lasting => history
  | .current => history.sinceCommit

section Told

variable [DecidableEq κ]

/-- What a step says was computed for a question of a lifetime. -/
def computed? (lifetime : Lifetime) (question : κ) : Step κ ν → Option (ν question)
  | .ask asked other computed =>
      if h : asked = lifetime ∧ other = question then some (h.2 ▸ computed) else none
  | _ => none

@[simp] theorem computed?_commit
    (lifetime : Lifetime)
    (question : κ)
    (batch : List Manifest)
    (roots : List String) :
    computed? lifetime question (.commit batch roots : Step κ ν) = none := rfl

@[simp] theorem computed?_promote
    (lifetime : Lifetime)
    (question : κ)
    (name : String) :
    computed? lifetime question (.promote name : Step κ ν) = none := rfl

/-- What was computed first for a question of a lifetime, among the steps that count for it. -/
def first? (history : History κ ν) (lifetime : Lifetime) (question : κ) : Option (ν question) :=
  (history.span lifetime).reverse.findSome? (computed? lifetime question)

/-- What comes of a step after a history. -/
def response (history : History κ ν) : Step κ ν → Response κ ν
  | .ask lifetime question computed =>
      .answer question ((history.first? lifetime question).getD computed)
  | .commit batch roots =>
      match unknown? (.commit batch roots :: history : History κ ν) roots with
      | none => .generation (history.commits + 1)
      | some name => .failure (.assemblyNotLoaded (.string name))
  | .promote name =>
      if history.knows name then .promoted else .failure (.assemblyNotLoaded (.string name))

/-- What comes of some steps after a history, one after the other. -/
def responses (history : History κ ν) : List (Step κ ν) → List (Response κ ν)
  | [] => []
  | step :: rest => history.response step :: responses (step :: history) rest

end Told

theorem knows_cons
    (step : Step κ ν)
    (history : History κ ν)
    (name : String) :
    knows (step :: history) name = true ↔ name ∈ step.names ∨ history.knows name = true := by
  simp [knows]

section First

/-- What comes of a step is a generation where it is a commit that succeeds. -/
theorem isGeneration_response
    [DecidableEq κ]
    (history : History κ ν)
    (step : Step κ ν) :
    (history.response step).isGeneration = endsInCommit (step :: history) := by
  cases step with
  | ask _ _ _ => rfl
  | commit batch roots =>
      rw [response, endsInCommit]
      cases unknown? (.commit batch roots :: history) roots <;> rfl
  | promote name =>
      rw [response]
      cases history.knows name <;> rfl

/-- The commits that succeed are those of which a generation comes. -/
theorem commits_append
    [DecidableEq κ]
    (history : History κ ν)
    (steps : List (Step κ ν)) :
    commits (steps.reverse ++ history) =
      history.commits + (history.responses steps).countP Response.isGeneration := by
  induction steps generalizing history with
  | nil => rfl
  | cons step rest ih =>
      rw [List.reverse_cons, List.append_assoc, List.singleton_append, ih, responses,
        List.countP_cons, isGeneration_response, commits]
      split <;> omega

variable [DecidableEq κ] {history : History κ ν} {step : Step κ ν} {lifetime : Lifetime} {question : κ}

/-- A step that is no commit, or a commit that fails, counts for what comes after it. -/
theorem first?_cons_of_not_endsInCommit
    (h : endsInCommit (step :: history) = false) :
    first? (step :: history) lifetime question =
      (history.first? lifetime question).or (computed? lifetime question step) := by
  have hspan : span (step :: history) lifetime = step :: history.span lifetime := by
    cases lifetime with
    | lasting => rfl
    | current => simp [span, sinceCommit, h]
  rw [first?, hspan, List.reverse_cons, List.findSome?_append, List.findSome?_singleton, first?]

/-- A commit that succeeds ends what counts for a generation. -/
theorem first?_cons_of_endsInCommit
    (h : endsInCommit (step :: history) = true) :
    first? (step :: history) lifetime question =
      match lifetime with
      | .lasting => history.first? .lasting question
      | .current => none := by
  cases lifetime with
  | current => simp [first?, span, sinceCommit, h]
  | lasting =>
      cases step with
      | commit batch roots => simp [first?, span]
      | ask _ _ _ => cases h
      | promote _ => cases h

end First

end History

section Commit

variable {κ : Type} {ν : κ → Type} {r : Registry κ ν} {batch : List Manifest} {roots : List String}

/-- A commit whose roots are known begins a generation. -/
theorem commit_of_known
    (h : ∀ name ∈ roots, (batch.foldl Catalog.add r.catalog).hasAssembly name = true) :
    ∃ rootNames, r.commit batch roots =
      (⟨{ batch.foldl Catalog.add r.catalog with rootNames := rootNames }, r.generation + 1,
        r.memo.nextGeneration⟩, .ok ()) := by
  obtain ⟨rootNames, he, -⟩ := Catalog.promoteAll_ok h
  exact ⟨rootNames, commit_ok he⟩

/-- A commit with an unknown root fails for the first one, and keeps the generation and the tables. -/
theorem commit_of_unknown
    {name : String}
    (h : roots.find? (fun n => !(batch.foldl Catalog.add r.catalog).hasAssembly n) = some name) :
    ∃ rootNames, r.commit batch roots =
      ({ r with catalog := { batch.foldl Catalog.add r.catalog with rootNames := rootNames } },
        .error (.assemblyNotLoaded (.string name))) := by
  obtain ⟨rootNames, he⟩ := Catalog.promoteAll_of_unknown h
  exact ⟨rootNames, commit_error he⟩

end Commit

section StandsFor

variable {κ : Type} {ν : κ → Type} [DecidableEq κ] {r : Registry κ ν} {history : History κ ν}

/-- A question is answered with what is remembered for it, or else with what is computed, which is then
remembered for it alone. -/
theorem remember_pure
    (r : Registry κ ν)
    (lifetime : Lifetime)
    (question : κ)
    (computed : ν question) :
    ∃ memo, remember lifetime question (pure computed) r =
        .ok ((r.memo.find? lifetime question).getD computed, { r with memo := memo }) ∧
      ∀ lifetime' other, memo.find? lifetime' other =
        (r.memo.find? lifetime' other).or
          (History.computed? lifetime' other (.ask lifetime question computed)) := by
  cases hf : r.memo.find? lifetime question with
  | some answer =>
      refine ⟨r.memo, remember_known hf, fun lifetime' other => ?_⟩
      by_cases he : lifetime = lifetime' ∧ question = other
      · obtain ⟨rfl, rfl⟩ := he
        rw [hf, Option.some_or]
      · rw [History.computed?, dif_neg he, Option.or_none]
  | none =>
      refine ⟨_, remember_new hf rfl, fun lifetime' other => ?_⟩
      by_cases he : lifetime = lifetime' ∧ question = other
      · obtain ⟨rfl, rfl⟩ := he
        rw [Memo.find?_store_self, hf, Option.none_or, History.computed?, dif_pos ⟨rfl, rfl⟩]
        rfl
      · rw [Memo.find?_store_of_ne _ _ (not_and_or.1 he), History.computed?, dif_neg he,
          Option.or_none]

/-- A registry stands for a history: its assemblies are those that the history has brought, its generation
is the number of the commits that succeeded, and its tables remember what was computed first. -/
structure StandsFor (r : Registry κ ν) (history : History κ ν) : Prop where
  knows : ∀ name, r.catalog.hasAssembly name = history.knows name
  generation : r.generation = history.commits
  remembers : ∀ lifetime question, r.memo.find? lifetime question = history.first? lifetime question

/-- An empty registry stands for the history in which nothing has been done. -/
theorem standsFor_empty :
    (empty : Registry κ ν).StandsFor [] where
  knows _ := rfl
  generation := rfl
  remembers lifetime _ := by cases lifetime <;> rfl

/-- A question is answered with what was computed for it first. -/
theorem StandsFor.ask
    (h : r.StandsFor history)
    (lifetime : Lifetime)
    (question : κ)
    (computed : ν question) :
    (r.perform (.ask lifetime question computed)).1.StandsFor (.ask lifetime question computed :: history) ∧
      (r.perform (.ask lifetime question computed)).2 =
        history.response (.ask lifetime question computed) := by
  obtain ⟨memo, he, hmemo⟩ := remember_pure r lifetime question computed
  rw [perform, he]
  refine ⟨⟨h.knows, h.generation, fun lifetime' other => ?_⟩, ?_⟩
  · rw [History.first?_cons_of_not_endsInCommit rfl, ← h.remembers, hmemo]
  · rw [History.response, ← h.remembers]

/-- After a commit an assembly is known if it was so before or is in the batch. -/
theorem StandsFor.knows_commit
    (h : r.StandsFor history)
    (batch : List Manifest)
    (roots : List String)
    (name : String) :
    (batch.foldl Catalog.add r.catalog).hasAssembly name =
      History.knows (.commit batch roots :: history) name := by
  rw [Bool.eq_iff_iff, Catalog.hasAssembly_foldl_add, History.knows_cons, h.knows, or_comm]
  rfl

/-- The first root of a commit that is no assembly then is the first that the history does not know. -/
theorem StandsFor.find?_unknown
    (h : r.StandsFor history)
    (batch : List Manifest)
    (roots : List String) :
    roots.find? (fun name => !(batch.foldl Catalog.add r.catalog).hasAssembly name) =
      History.unknown? (.commit batch roots :: history) roots := by
  simp only [h.knows_commit batch roots, History.unknown?]

/-- A commit begins a generation, or fails for its first unknown root. -/
theorem StandsFor.commit
    (h : r.StandsFor history)
    (batch : List Manifest)
    (roots : List String) :
    (r.perform (.commit batch roots)).1.StandsFor (.commit batch roots :: history) ∧
      (r.perform (.commit batch roots)).2 = history.response (.commit batch roots) := by
  have hknows := h.knows_commit batch roots
  cases hroots : History.unknown? (.commit batch roots :: history) roots with
  | none =>
      have hends : History.endsInCommit (.commit batch roots :: history) = true := by
        rw [History.endsInCommit, hroots, Option.isNone_none]
      have hall : ∀ name ∈ roots, (batch.foldl Catalog.add r.catalog).hasAssembly name = true := by
        intro name hname
        have hknown := List.find?_eq_none.1 ((h.find?_unknown batch roots).trans hroots) name hname
        simpa using hknown
      obtain ⟨rootNames, he⟩ := commit_of_known hall
      rw [perform, he, History.response, hroots]
      refine ⟨⟨hknows, ?_, fun lifetime question => ?_⟩, ?_⟩
      · rw [History.commits, if_pos hends, h.generation]
      · rw [History.first?_cons_of_endsInCommit hends]
        cases lifetime with
        | lasting => exact h.remembers .lasting question
        | current => rfl
      · rw [h.generation]
  | some name =>
      have hends : History.endsInCommit (.commit batch roots :: history) = false := by
        rw [History.endsInCommit, hroots, Option.isNone_some]
      obtain ⟨rootNames, he⟩ := commit_of_unknown ((h.find?_unknown batch roots).trans hroots)
      rw [perform, he, History.response, hroots]
      refine ⟨⟨hknows, ?_, fun lifetime question => ?_⟩, rfl⟩
      · rw [History.commits, if_neg (by simp [hends]), h.generation]
      · rw [History.first?_cons_of_not_endsInCommit hends, ← h.remembers, History.computed?_commit,
          Option.or_none]

/-- A new root changes neither the generation nor what is remembered. -/
theorem StandsFor.promote
    (h : r.StandsFor history)
    (name : String) :
    (r.perform (.promote name)).1.StandsFor (.promote name :: history) ∧
      (r.perform (.promote name)).2 = history.response (.promote name) := by
  have hfirst : ∀ lifetime question, r.memo.find? lifetime question =
      History.first? (.promote name :: history) lifetime question := by
    intro lifetime question
    rw [History.first?_cons_of_not_endsInCommit rfl, ← h.remembers, History.computed?_promote,
      Option.or_none]
  rw [perform, Registry.promote, History.response, ← h.knows]
  cases hname : r.catalog.hasAssembly name with
  | true =>
      obtain ⟨rootNames, he⟩ := Catalog.exists_promote hname
      rw [he]
      exact ⟨⟨h.knows, h.generation, hfirst⟩, rfl⟩
  | false =>
      rw [Catalog.promote, hname]
      exact ⟨⟨h.knows, h.generation, hfirst⟩, rfl⟩

/-- A step is answered as the history says, and the registry then stands for the longer history. -/
theorem StandsFor.step
    (h : r.StandsFor history)
    (step : Step κ ν) :
    (r.perform step).1.StandsFor (step :: history) ∧ (r.perform step).2 = history.response step := by
  cases step with
  | ask lifetime question computed => exact h.ask lifetime question computed
  | commit batch roots => exact h.commit batch roots
  | promote name => exact h.promote name

/-- So are some steps one after the other. -/
theorem StandsFor.steps
    (h : r.StandsFor history)
    (steps : List (Step κ ν)) :
    (r.performAll steps).1.StandsFor (steps.reverse ++ history) ∧
      (r.performAll steps).2 = history.responses steps := by
  induction steps generalizing r history with
  | nil => exact ⟨h, rfl⟩
  | cons step rest ih =>
      obtain ⟨hstep, hresponse⟩ := h.step step
      obtain ⟨hrest, hresponses⟩ := ih hstep
      refine ⟨?_, ?_⟩
      · rw [List.reverse_cons, List.append_assoc]
        exact hrest
      · change (r.perform step).2 :: ((r.perform step).1.performAll rest).2 = _
        rw [hresponse, hresponses, History.responses]

/-- Whatever is done to an empty registry, it answers as the history says: a lasting question with what was
computed for it first, and a question of the generation with what was computed for it first since the last
commit that succeeded.  The generation is the number of the commits that succeeded, the tables remember what
was computed first, and a commit with an unknown root fails for the first such root and leaves both of them
as they were. -/
theorem memo_refines_history
    (steps : List (Step κ ν)) :
    let r : Registry κ ν := (empty.performAll steps).1
    let responses := (empty.performAll steps).2
    responses = History.responses [] steps ∧
    r.generation = responses.countP Response.isGeneration ∧
    (∀ lifetime question,
      r.memo.find? lifetime question = History.first? steps.reverse lifetime question) ∧
    (∀ batch roots name, History.unknown? (.commit batch roots :: steps.reverse) roots = some name →
      (r.perform (.commit batch roots)).2 = .failure (.assemblyNotLoaded (.string name)) ∧
      (r.perform (.commit batch roots)).1.memo = r.memo ∧
      (r.perform (.commit batch roots)).1.generation = r.generation) := by
  intro r responses
  have hstart : (empty : Registry κ ν).StandsFor [] := standsFor_empty
  have hstands : r.StandsFor steps.reverse := List.append_nil steps.reverse ▸ (hstart.steps steps).1
  have hresponses : responses = History.responses [] steps := (hstart.steps steps).2
  refine ⟨hresponses, ?_, hstands.remembers, fun batch roots name hname => ?_⟩
  · have hcommits := History.commits_append [] steps
    rw [List.append_nil, ← hresponses] at hcommits
    rw [hstands.generation, hcommits, History.commits, Nat.zero_add]
  · obtain ⟨rootNames, he⟩ := commit_of_unknown ((hstands.find?_unknown batch roots).trans hname)
    rw [perform, he]
    exact ⟨rfl, rfl, rfl⟩

end StandsFor

/-- One name is asked about in both ways, before and after a commit that fails and one that succeeds. -/
def askedAgain : List (Step String fun _ => Nat) :=
  [.ask .lasting "k" 1, .ask .current "k" 2, .ask .lasting "k" 3, .commit [] ["app"],
    .ask .current "k" 4, .commit [] [], .ask .current "k" 5, .ask .lasting "k" 6]

/-- The lasting answer stays the first one, and the other is forgotten by the commit that succeeds; one more
commit with a root that no assembly has changes nothing. -/
theorem memo_refines_history_of_askedAgain :
    let r := (empty.performAll askedAgain).1
    (empty.performAll askedAgain).2 =
      [.answer "k" 1, .answer "k" 2, .answer "k" 1, .failure (.assemblyNotLoaded (.string "app")),
        .answer "k" 2, .generation 1, .answer "k" 5, .answer "k" 1] ∧
    r.generation = 1 ∧
    History.unknown? (.commit [] ["app"] :: askedAgain.reverse) ["app"] = some "app" ∧
    (r.perform (.commit [] ["app"])).1.memo = r.memo := by
  have hunknown : History.unknown? (.commit [] ["app"] :: askedAgain.reverse) ["app"] =
      some "app" := by
    rfl
  obtain ⟨hresponses, hgeneration, -, hfails⟩ := memo_refines_history askedAgain
  obtain ⟨-, hkept, -⟩ := hfails [] ["app"] "app" hunknown
  refine ⟨hresponses.trans rfl, ?_, hunknown, hkept⟩
  rw [hgeneration, hresponses]
  rfl

end Registry
end TypeGraph
