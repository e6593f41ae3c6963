import Mathlib.Data.List.Nodup
import TypeGraph.Loading.Flight
import TypeGraph.Proofs.Result

/-!
# What is in flight

A flight only grows: the identifier of a resolution and its answer stay what they are.  Of a sound flight
the answers are those of the resolver, and what is shared under an identifier is a resolution of it.

**Results.**
* `Flight.within_fetchAll`, `Flight.within_answer`: asking and answering lose nothing.
* `Flight.Numbered.fetchAll`: who asks for some identifiers is given resolutions of them.
* `Flight.Sound.fetchAll`, `Flight.Sound.answered`, `Flight.Sound.share`: a flight stays sound.
* `Flight.Sound.manifests`, `Flight.Sound.mapM_manifestOf`, `Flight.Sound.failure`: what has been answered
  is what the resolver answers.
-/

namespace TypeGraph
namespace Flight

/-- The identifier of a resolution. -/
def identifierOf (f : Flight) (number : Nat) : Option String :=
  f.resolutions[number]?.map Resolution.identifier

/-- Nothing that was asked or answered is lost. -/
structure Within (f f' : Flight) : Prop where
  identifier : ∀ number identifier, f.identifierOf number = some identifier →
    f'.identifierOf number = some identifier
  answer : ∀ number answer, f.answerOf number = some answer → f'.answerOf number = some answer

theorem Within.refl
    (f : Flight) :
    f.Within f :=
  ⟨fun _ _ h => h, fun _ _ h => h⟩

theorem Within.trans
    {f f' f'' : Flight}
    (h : f.Within f')
    (h' : f'.Within f'') :
    f.Within f'' where
  identifier number identifier hi := h'.identifier number identifier (h.identifier number identifier hi)
  answer number answer ha := h'.answer number answer (h.answer number answer ha)

/-- Sharing less loses nothing. -/
theorem Within.of_resolutions
    {f f' : Flight}
    (h : f'.resolutions = f.resolutions) :
    f.Within f' where
  identifier number identifier hi := by rwa [identifierOf, h]
  answer number answer ha := by rwa [answerOf, h]

section Parts

variable {f f' : Flight} {number : Nat} {m : Manifest} {failure : Failure}

theorem manifestOf_eq_some_iff :
    f.manifestOf number = some m ↔ f.answerOf number = some (.ok m) := by
  unfold manifestOf
  split
  · rename_i h
    simp [h]
  · rename_i h
    simp only [reduceCtorEq, false_iff]
    exact fun ha => h m ha

theorem failureOf_eq_some_iff :
    f.failureOf number = some failure ↔ f.answerOf number = some (.error failure) := by
  unfold failureOf
  split
  · rename_i h
    simp [h]
  · rename_i h
    simp only [reduceCtorEq, false_iff]
    exact fun ha => h failure ha

theorem identifierOf_lt
    {identifier : String}
    (h : f.identifierOf number = some identifier) :
    number < f.resolutions.length := by
  obtain ⟨r, hr, -⟩ := Option.map_eq_some_iff.1 h
  exact (List.getElem?_eq_some_iff.1 hr).1

/-- What has an answer was asked for. -/
theorem identifierOf_of_answerOf
    {answer : Except Failure Manifest}
    (h : f.answerOf number = some answer) :
    ∃ identifier, f.identifierOf number = some identifier := by
  obtain ⟨r, hr, -⟩ := Option.bind_eq_some_iff.1 h
  exact ⟨r.identifier, by rw [identifierOf, hr]; rfl⟩

theorem mem_pending_iff :
    number ∈ f.pending ↔ number < f.resolutions.length ∧ f.answerOf number = none := by
  simp [pending]

end Parts

section Fetch

variable {f f' : Flight} {identifier : String} {wave : List String} {number : Nat}

/-- Asking for an identifier gives a resolution that is shared, or starts a new one. -/
theorem fetch_cases
    (f : Flight)
    (identifier : String) :
    (∃ number, f.shared.lookup identifier = some number ∧ f.fetch identifier = (f, number)) ∨
      f.shared.lookup identifier = none ∧
        f.fetch identifier =
          (⟨f.resolutions ++ [⟨identifier, none⟩], (identifier, f.resolutions.length) :: f.shared⟩,
            f.resolutions.length) := by
  unfold fetch
  split
  · rename_i number h
    exact Or.inl ⟨number, h, rfl⟩
  · rename_i h
    exact Or.inr ⟨h, rfl⟩

theorem within_of_append
    {more : List Resolution}
    (h : f'.resolutions = f.resolutions ++ more) :
    f.Within f' where
  identifier number identifier hi := by
    have hlt := identifierOf_lt hi
    rw [identifierOf, h, List.getElem?_append_left hlt]
    exact hi
  answer number answer ha := by
    obtain ⟨identifier, hi⟩ := identifierOf_of_answerOf ha
    have hlt := identifierOf_lt hi
    rw [answerOf, h, List.getElem?_append_left hlt]
    exact ha

theorem within_fetch
    (f : Flight)
    (identifier : String) :
    f.Within (f.fetch identifier).1 := by
  rcases fetch_cases f identifier with ⟨number, -, he⟩ | ⟨-, he⟩ <;> rw [he]
  · exact Within.refl f
  · exact within_of_append rfl

theorem within_fetchAll
    (f : Flight)
    (wave : List String) :
    f.Within (f.fetchAll wave).1 := by
  induction wave generalizing f with
  | nil => exact Within.refl f
  | cons identifier rest ih => exact (within_fetch f identifier).trans (ih _)

/-- What is shared under an identifier is a resolution of it. -/
def Numbered (f : Flight) : Prop :=
  ∀ entry ∈ f.shared, f.identifierOf entry.2 = some entry.1

theorem mem_shared_of_lookup
    (h : f.shared.lookup identifier = some number) :
    (identifier, number) ∈ f.shared := by
  obtain ⟨before, after, he, -⟩ := List.lookup_eq_some_iff.1 h
  simp [he]

theorem Numbered.fetch
    (h : f.Numbered)
    (identifier : String) :
    (f.fetch identifier).1.Numbered ∧
      (f.fetch identifier).1.identifierOf (f.fetch identifier).2 = some identifier := by
  rcases fetch_cases f identifier with ⟨number, hl, he⟩ | ⟨-, he⟩
  · rw [he]
    exact ⟨h, h _ (mem_shared_of_lookup hl)⟩
  · have hw := within_fetch f identifier
    rw [he] at hw ⊢
    have hnew : identifierOf ⟨f.resolutions ++ [⟨identifier, none⟩],
        (identifier, f.resolutions.length) :: f.shared⟩ f.resolutions.length = some identifier := by
      simp [identifierOf]
    refine ⟨?_, hnew⟩
    intro entry hentry
    rcases List.mem_cons.1 hentry with rfl | hold
    · exact hnew
    · exact hw.identifier _ _ (h entry hold)

/-- Some numbers are those of resolutions of some identifiers, one after the other. -/
def Covers (f : Flight) (wave : List String) (numbers : List Nat) : Prop :=
  List.Forall₂ (fun identifier number => f.identifierOf number = some identifier) wave numbers

theorem Covers.mono
    {numbers : List Nat}
    (h : f.Covers wave numbers)
    (hw : f.Within f') :
    f'.Covers wave numbers :=
  List.Forall₂.imp (fun _ _ hi => hw.identifier _ _ hi) h

/-- Who asks for some identifiers is given resolutions of them. -/
theorem Numbered.fetchAll
    (h : f.Numbered)
    (wave : List String) :
    (f.fetchAll wave).1.Numbered ∧ (f.fetchAll wave).1.Covers wave (f.fetchAll wave).2 := by
  induction wave generalizing f with
  | nil => exact ⟨h, .nil⟩
  | cons identifier rest ih =>
      obtain ⟨hfirst, hnumber⟩ := h.fetch identifier
      obtain ⟨hrest, hnumbers⟩ := ih hfirst
      exact ⟨hrest, .cons ((within_fetchAll _ rest).identifier _ _ hnumber) hnumbers⟩

end Fetch

section Answer

variable {f f' : Flight} {answer : String → Except Failure Manifest} {number other : Nat}

/-- A resolution that is answered had no answer. -/
theorem answer?_eq_some_iff :
    f.answer? answer number = some f' ↔
      ∃ identifier, f.resolutions[number]? = some ⟨identifier, none⟩ ∧
        f' = { f with
          resolutions := f.resolutions.set number ⟨identifier, some (answer identifier)⟩ } := by
  unfold answer?
  split
  · rename_i identifier h
    constructor
    · intro he
      exact ⟨identifier, h, (Option.some.inj he).symm⟩
    · rintro ⟨other, ho, rfl⟩
      rw [h] at ho
      cases ho
      rfl
  · rename_i h
    simp only [reduceCtorEq, false_iff, not_exists, not_and]
    exact fun identifier hi => absurd hi (h identifier)

theorem identifierOf_answer
    (h : f.answer? answer number = some f')
    (other : Nat) :
    f'.identifierOf other = f.identifierOf other := by
  obtain ⟨identifier, hi, rfl⟩ := answer?_eq_some_iff.1 h
  by_cases ho : number = other
  · subst ho
    have hlt := (List.getElem?_eq_some_iff.1 hi).1
    rw [identifierOf, identifierOf, hi, List.getElem?_set_self hlt]
    rfl
  · simp [identifierOf, List.getElem?_set_ne ho]

theorem answerOf_answer_of_ne
    (h : f.answer? answer number = some f')
    (ho : number ≠ other) :
    f'.answerOf other = f.answerOf other := by
  obtain ⟨identifier, hi, rfl⟩ := answer?_eq_some_iff.1 h
  simp [answerOf, List.getElem?_set_ne ho]

/-- What was asked for is answered. -/
theorem answerOf_answer
    (h : f.answer? answer number = some f') :
    ∃ identifier, f.identifierOf number = some identifier ∧ f.answerOf number = none ∧
      f'.answerOf number = some (answer identifier) := by
  obtain ⟨identifier, hi, rfl⟩ := answer?_eq_some_iff.1 h
  have hlt := (List.getElem?_eq_some_iff.1 hi).1
  exact ⟨identifier, by simp [identifierOf, hi], by simp [answerOf, hi], by simp [answerOf, hlt]⟩

theorem within_answer
    (h : f.answer? answer number = some f') :
    f.Within f' where
  identifier other identifier hi := by rwa [identifierOf_answer h]
  answer other a ha := by
    by_cases ho : number = other
    · subst ho
      obtain ⟨-, -, hnone, -⟩ := answerOf_answer h
      rw [hnone] at ha
      cases ha
    · rwa [answerOf_answer_of_ne h ho]

/-- A resolution that is forgotten has failed. -/
theorem forget?_eq_some_iff :
    f.forget? number = some f' ↔
      (∃ failure, f.failureOf number = some failure) ∧
        f' = { f with shared := f.shared.filter fun entry => entry.2 != number } := by
  unfold forget?
  split
  · rename_i failure h
    simp [h, eq_comm]
  · rename_i h
    simp [h]

end Answer

/-- The answers are those of a resolver, and what is shared under an identifier is a resolution of
it. -/
structure Sound (answer : String → Except Failure Manifest) (f : Flight) : Prop where
  truthful : ∀ number identifier a, f.identifierOf number = some identifier →
    f.answerOf number = some a → a = answer identifier
  numbered : f.Numbered

section Sound

variable {answer : String → Except Failure Manifest} {f f' : Flight} {number : Nat}

theorem sound_empty
    (answer : String → Except Failure Manifest) :
    empty.Sound answer where
  truthful number identifier a hi := by simp [empty, identifierOf] at hi
  numbered entry he := by simp [empty] at he

/-- Asking starts resolutions without an answer. -/
theorem answerOf_fetch
    (f : Flight)
    (identifier : String)
    (number : Nat) :
    (f.fetch identifier).1.answerOf number = f.answerOf number := by
  rcases fetch_cases f identifier with ⟨found, -, he⟩ | ⟨-, he⟩ <;> rw [he]
  unfold answerOf
  rcases Nat.lt_trichotomy number f.resolutions.length with hlt | rfl | hgt
  · rw [List.getElem?_append_left hlt]
  · simp
  · have hlong : (f.resolutions ++ [(⟨identifier, none⟩ : Resolution)]).length ≤ number := by
      rw [List.length_append, List.length_singleton]
      omega
    rw [List.getElem?_eq_none hlong, List.getElem?_eq_none (by omega)]

theorem answerOf_fetchAll
    (f : Flight)
    (wave : List String)
    (number : Nat) :
    (f.fetchAll wave).1.answerOf number = f.answerOf number := by
  induction wave generalizing f with
  | nil => rfl
  | cons identifier rest ih => exact (ih _).trans (answerOf_fetch f identifier number)

theorem Sound.fetchAll
    (h : f.Sound answer)
    (wave : List String) :
    (f.fetchAll wave).1.Sound answer where
  truthful number identifier a hi ha := by
    rw [answerOf_fetchAll] at ha
    obtain ⟨known, hknown⟩ := identifierOf_of_answerOf ha
    have hsame := (within_fetchAll f wave).identifier number known hknown
    rw [hi] at hsame
    cases hsame
    exact h.truthful number identifier a hknown ha
  numbered := (h.numbered.fetchAll wave).1

theorem Sound.answered
    (h : f.Sound answer)
    (ha : f.answer? answer number = some f') :
    f'.Sound answer where
  truthful other identifier a hi hother := by
    rw [identifierOf_answer ha] at hi
    by_cases ho : number = other
    · subst ho
      obtain ⟨asked, hasked, -, hnew⟩ := answerOf_answer ha
      rw [hi] at hasked
      cases hasked
      rw [hnew] at hother
      cases hother
      rfl
    · rw [answerOf_answer_of_ne ha ho] at hother
      exact h.truthful other identifier a hi hother
  numbered := by
    obtain ⟨asked, -, rfl⟩ := answer?_eq_some_iff.1 ha
    intro entry he
    rw [identifierOf_answer ha]
    exact h.numbered entry he

/-- Sharing less keeps a flight sound. -/
theorem Sound.share
    (h : f.Sound answer)
    (p : String × Nat → Bool) :
    Sound answer { f with shared := f.shared.filter p } where
  truthful := h.truthful
  numbered entry he := h.numbered entry (List.mem_filter.1 he).1

/-- The manifests of some resolutions are the answers to their identifiers. -/
theorem Sound.manifests
    {wave : List String}
    {numbers : List Nat}
    {manifests : List Manifest}
    (h : f.Sound answer)
    (hc : f.Covers wave numbers)
    (hm : numbers.mapM f.manifestOf = some manifests) :
    List.Forall₂ (fun identifier m => answer identifier = .ok m) wave manifests := by
  induction hc generalizing manifests with
  | nil =>
      cases hm
      exact .nil
  | @cons identifier number rest numbers hi _ ih =>
      rw [List.mapM_cons] at hm
      obtain ⟨m, hfirst, hm⟩ := Option.bind_eq_some_iff.1 hm
      obtain ⟨others, hrest, hm⟩ := Option.bind_eq_some_iff.1 hm
      cases hm
      exact .cons (h.truthful _ _ _ hi (manifestOf_eq_some_iff.1 hfirst)).symm (ih hrest)

/-- Resolutions that are all answered have the manifests that are the answers to their identifiers. -/
theorem Sound.mapM_manifestOf
    {wave : List String}
    {numbers : List Nat}
    {manifests : List Manifest}
    (h : f.Sound answer)
    (hc : f.Covers wave numbers)
    (ha : ∀ number ∈ numbers, ∃ a, f.answerOf number = some a)
    (hans : List.Forall₂ (fun identifier m => answer identifier = .ok m) wave manifests) :
    numbers.mapM f.manifestOf = some manifests := by
  induction hc generalizing manifests with
  | nil =>
      cases hans
      rfl
  | @cons identifier number rest numbers hi _ ih =>
      obtain ⟨⟨a, hfirst⟩, hrest⟩ := List.forall_mem_cons.1 ha
      cases hans with
      | cons hm hothers =>
          have hsame := h.truthful _ _ _ hi hfirst
          rw [hm] at hsame
          subst hsame
          rw [List.mapM_cons, manifestOf_eq_some_iff.2 hfirst, ih hrest hothers]
          rfl

/-- The failure of one of some resolutions is that of one of their identifiers. -/
theorem Sound.failure
    {wave : List String}
    {numbers : List Nat}
    {failure : Failure}
    (h : f.Sound answer)
    (hc : f.Covers wave numbers)
    (hn : number ∈ numbers)
    (hf : f.failureOf number = some failure) :
    ∃ identifier ∈ wave, answer identifier = .error failure := by
  obtain ⟨identifier, hmem, hi⟩ := exists_of_mem_forall₂ hc hn
  exact ⟨identifier, hmem, (h.truthful _ _ _ hi (failureOf_eq_some_iff.1 hf)).symm⟩

end Sound

end Flight
end TypeGraph
