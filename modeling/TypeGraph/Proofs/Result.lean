import Mathlib.Data.List.Forall2

/-!
# Results that may be errors

When a computation with several steps succeeds, each of its steps does.
-/

namespace TypeGraph

section Result

variable {α β ε ε' : Type}

/-- Two steps succeed when the first does and the second does with its result. -/
theorem bind_eq_ok_iff
    {x : Except ε α}
    {f : α → Except ε β}
    {b : β} :
    (x >>= f) = .ok b ↔ ∃ a, x = .ok a ∧ f a = .ok b := by
  cases x with
  | error e => simp [bind, Except.bind]
  | ok a => simp [bind, Except.bind]

/-- Two steps fail when the first does, or the second does with the result of the first. -/
theorem bind_eq_error_iff
    {x : Except ε α}
    {f : α → Except ε β}
    {e : ε} :
    (x >>= f) = .error e ↔ x = .error e ∨ ∃ a, x = .ok a ∧ f a = .error e := by
  cases x with
  | error e => simp [bind, Except.bind]
  | ok a => simp [bind, Except.bind]

/-- After a step that succeeds the next one goes on with its result. -/
theorem bind_of_ok
    {x : Except ε α}
    {a : α}
    (h : x = .ok a)
    (f : α → Except ε β) :
    (x >>= f) = f a := by
  rw [h]
  rfl

/-- A refusal is no success. -/
@[simp] theorem throw_ne_ok
    {e : ε}
    {a : α} :
    (throw e : Except ε α) ≠ .ok a := by
  intro h
  cases h

@[simp] theorem pure_eq_ok_iff
    {a b : α} :
    (pure a : Except ε α) = .ok b ↔ a = b := by
  simp [pure, Except.pure]

/-- A result that is there is the result of a success. -/
theorem eq_ok_of_toOption
    {x : Except ε α}
    {a : α}
    (h : x.toOption = some a) :
    x = .ok a := by
  cases x with
  | error e => cases h
  | ok b =>
      cases h
      rfl

/-- Rewording an error makes no success. -/
theorem mapError_eq_ok_iff
    {x : Except ε α}
    {f : ε → ε'}
    {a : α} :
    x.mapError f = .ok a ↔ x = .ok a := by
  cases x with
  | error e =>
      constructor
      · intro h
        cases h
      · intro h
        cases h
  | ok a =>
      constructor
      · intro h
        cases h
        rfl
      · intro h
        cases h
        rfl

/-- A reworded error comes from an error. -/
theorem mapError_eq_error_iff
    {x : Except ε α}
    {f : ε → ε'}
    {e' : ε'} :
    x.mapError f = .error e' ↔ ∃ e, x = .error e ∧ f e = e' := by
  cases x with
  | error e =>
      constructor
      · intro h
        cases h
        exact ⟨e, rfl, rfl⟩
      · rintro ⟨e, h, rfl⟩
        cases h
        rfl
  | ok a =>
      constructor
      · intro h
        cases h
      · rintro ⟨e, h, -⟩
        cases h

/-- A step for each element succeeds when each of them does, and gives their results in order. -/
theorem mapM_eq_ok_iff
    {f : α → Except ε β}
    {xs : List α}
    {ys : List β} :
    xs.mapM f = .ok ys ↔ List.Forall₂ (fun x y => f x = .ok y) xs ys := by
  induction xs generalizing ys with
  | nil =>
      simp only [List.mapM_nil, pure, Except.pure, Except.ok.injEq, List.forall₂_nil_left_iff]
      exact eq_comm
  | cons x rest ih =>
      rw [List.mapM_cons, bind_eq_ok_iff]
      simp only [bind_eq_ok_iff, pure, Except.pure, Except.ok.injEq, ih]
      constructor
      · rintro ⟨y, hy, ys', hrest, rfl⟩
        exact List.Forall₂.cons hy hrest
      · intro h
        cases h with
        | cons hy hrest => exact ⟨_, hy, _, hrest, rfl⟩

/-- A step for each element fails where the step for one of them does. -/
theorem exists_of_mapM_eq_error
    {f : α → Except ε β}
    {xs : List α}
    {e : ε}
    (h : xs.mapM f = .error e) :
    ∃ x ∈ xs, f x = .error e := by
  induction xs with
  | nil => simp [pure, Except.pure] at h
  | cons x rest ih =>
      rw [List.mapM_cons, bind_eq_error_iff] at h
      rcases h with hx | ⟨y, -, hrest⟩
      · exact ⟨x, by simp, hx⟩
      · rcases bind_eq_error_iff.1 hrest with hrest | ⟨ys, -, hdone⟩
        · obtain ⟨x', hmem, hx'⟩ := ih hrest
          exact ⟨x', List.mem_cons_of_mem _ hmem, hx'⟩
        · simp [pure, Except.pure] at hdone

/-- The first step that fails decides how all of them fail. -/
theorem mapM_eq_error_of_first
    {f : α → Except ε β}
    {before after : List α}
    {x : α}
    {e : ε}
    (hbefore : ∀ y ∈ before, ∃ b, f y = .ok b)
    (hx : f x = .error e) :
    (before ++ x :: after).mapM f = .error e := by
  induction before with
  | nil => exact (List.mapM_cons ..).trans (bind_eq_error_iff.2 (Or.inl hx))
  | cons y before ih =>
      obtain ⟨b, hy⟩ := hbefore y (by simp)
      have hrest := ih fun z hz => hbefore z (List.mem_cons_of_mem _ hz)
      rw [List.cons_append, List.mapM_cons, bind_of_ok hy]
      exact bind_eq_error_iff.2 (Or.inl hrest)

/-- Where some step has no result there is a first one that fails. -/
theorem exists_first_error
    {f : α → Except ε β}
    {xs : List α}
    (h : ∃ x ∈ xs, ∀ b, f x ≠ .ok b) :
    ∃ before x after e, xs = before ++ x :: after ∧ (∀ y ∈ before, ∃ b, f y = .ok b) ∧
      f x = .error e := by
  induction xs with
  | nil => simp at h
  | cons x rest ih =>
      cases hx : f x with
      | error e => exact ⟨[], x, rest, e, rfl, by simp, hx⟩
      | ok b =>
          obtain ⟨z, hz, hnone⟩ := h
          rcases List.mem_cons.1 hz with rfl | hz
          · exact absurd hx (hnone b)
          · obtain ⟨before, y, after, e, rfl, hbefore, hy⟩ := ih ⟨z, hz, hnone⟩
            exact ⟨x :: before, y, after, e, rfl, List.forall_mem_cons.2 ⟨⟨b, hx⟩, hbefore⟩, hy⟩

/-- An optional step for each element has results when each of them does, and gives them in order. -/
theorem mapM_eq_some_iff
    {f : α → Option β}
    {xs : List α}
    {ys : List β} :
    xs.mapM f = some ys ↔ List.Forall₂ (fun x y => f x = some y) xs ys := by
  induction xs generalizing ys with
  | nil =>
      simp only [List.mapM_nil, pure, Option.some.injEq, List.forall₂_nil_left_iff]
      exact eq_comm
  | cons x rest ih =>
      rw [List.mapM_cons, List.forall₂_cons_left_iff]
      simp only [Option.bind_eq_bind, Option.bind_eq_some_iff, pure, Option.some.injEq, ih]
      constructor
      · rintro ⟨y, hy, ys', hrest, rfl⟩
        exact ⟨y, ys', hy, hrest, rfl⟩
      · rintro ⟨y, ys', hy, hrest, rfl⟩
        exact ⟨y, hy, ys', hrest, rfl⟩

/-- Two lists are related element by element through a third one when their elements are. -/
theorem forall₂_comp_iff
    {γ : Type}
    {R : α → β → Prop}
    {S : β → γ → Prop}
    {xs : List α}
    {zs : List γ} :
    (∃ ys, List.Forall₂ R xs ys ∧ List.Forall₂ S ys zs) ↔
      List.Forall₂ (fun x z => ∃ y, R x y ∧ S y z) xs zs := by
  constructor
  · rintro ⟨ys, hR, hS⟩
    induction hR generalizing zs with
    | nil =>
        cases hS
        exact .nil
    | cons hxy _ ih =>
        cases hS with
        | cons hyz hS => exact .cons ⟨_, hxy, hyz⟩ (ih hS)
  · intro h
    induction h with
    | nil => exact ⟨[], .nil, .nil⟩
    | cons hxz _ ih =>
        obtain ⟨y, hxy, hyz⟩ := hxz
        obtain ⟨ys, hR, hS⟩ := ih
        exact ⟨y :: ys, .cons hxy hR, .cons hyz hS⟩

/-- Steps that are the same for each element have the same results. -/
theorem mapM_congr
    {f g : α → Except ε β}
    {xs : List α}
    (h : ∀ x ∈ xs, f x = g x) :
    xs.mapM f = xs.mapM g := by
  induction xs with
  | nil => rfl
  | cons x rest ih =>
      rw [List.mapM_cons, List.mapM_cons, h x (by simp),
        ih fun x hx => h x (List.mem_cons_of_mem _ hx)]

/-- One element may be replaced by another that is related to all that it is related to. -/
theorem forall₂_replace
    {R : α → β → Prop}
    {before after : List α}
    {a b : α}
    {ys : List β}
    (hab : ∀ y, R a y → R b y)
    (h : List.Forall₂ R (before ++ a :: after) ys) :
    List.Forall₂ R (before ++ b :: after) ys := by
  induction before generalizing ys with
  | nil =>
      cases h with
      | cons ha hafter => exact .cons (hab _ ha) hafter
  | cons x before ih =>
      cases h with
      | cons hx hrest => exact .cons hx (ih hrest)

/-- Related lists have related elements at each position. -/
theorem exists_of_forall₂
    {R : α → β → Prop}
    {xs : List α}
    {ys : List β}
    (h : List.Forall₂ R xs ys)
    {i : Nat}
    {y : β}
    (hy : ys[i]? = some y) :
    ∃ x, xs[i]? = some x ∧ R x y := by
  induction h generalizing i with
  | nil => simp at hy
  | @cons x y' xs ys hxy _ ih =>
      cases i with
      | zero =>
          cases hy
          exact ⟨x, rfl, hxy⟩
      | succ i => exact ih hy

/-- Related elements may be put in the same position of related lists. -/
theorem forall₂_set
    {R : α → β → Prop}
    {xs : List α}
    {ys : List β}
    (h : List.Forall₂ R xs ys)
    (i : Nat)
    {x : α}
    {y : β}
    (hxy : R x y) :
    List.Forall₂ R (xs.set i x) (ys.set i y) := by
  induction h generalizing i with
  | nil => exact .nil
  | cons hfirst hrest ih =>
      cases i with
      | zero => exact .cons hxy hrest
      | succ i => exact .cons hfirst (ih i)

theorem exists_of_mem_forall₂
    {R : α → β → Prop}
    {xs : List α}
    {ys : List β}
    (h : List.Forall₂ R xs ys)
    {y : β}
    (hy : y ∈ ys) :
    ∃ x ∈ xs, R x y := by
  induction h with
  | nil => simp at hy
  | cons hx _ ih =>
      rcases List.mem_cons.1 hy with rfl | hy
      · exact ⟨_, by simp, hx⟩
      · obtain ⟨x, hmem, hx⟩ := ih hy
        exact ⟨x, List.mem_cons_of_mem _ hmem, hx⟩

theorem exists_of_mem_results
    {f : α → Except ε β}
    {xs : List α}
    {ys : List β}
    (h : xs.mapM f = .ok ys)
    {y : β}
    (hy : y ∈ ys) :
    ∃ x ∈ xs, f x = .ok y :=
  exists_of_mem_forall₂ (mapM_eq_ok_iff.1 h) hy

theorem exists_result_of_mem
    {f : α → Except ε β}
    {xs : List α}
    {ys : List β}
    (h : xs.mapM f = .ok ys)
    {x : α}
    (hx : x ∈ xs) :
    ∃ y ∈ ys, f x = .ok y := by
  rw [mapM_eq_ok_iff] at h
  induction h with
  | nil => simp at hx
  | cons hy _ ih =>
      rcases List.mem_cons.1 hx with rfl | hx
      · exact ⟨_, by simp, hy⟩
      · obtain ⟨y, hmem, hy⟩ := ih hx
        exact ⟨y, List.mem_cons_of_mem _ hmem, hy⟩

/-- A step for each element succeeds when there is a result for each. -/
theorem exists_results
    {f : α → Except ε β}
    {xs : List α}
    (h : ∀ x ∈ xs, ∃ y, f x = .ok y) :
    ∃ ys, xs.mapM f = .ok ys := by
  simp only [mapM_eq_ok_iff]
  induction xs with
  | nil => exact ⟨[], List.Forall₂.nil⟩
  | cons x rest ih =>
      obtain ⟨y, hy⟩ := h x (by simp)
      obtain ⟨ys, hrest⟩ := ih fun x hx => h x (List.mem_cons_of_mem _ hx)
      exact ⟨y :: ys, List.Forall₂.cons hy hrest⟩

/-- A test of each element that always has an answer keeps those that pass. -/
theorem filterM_eq_ok
    {p : α → Except ε Bool}
    {q : α → Bool}
    {xs : List α}
    (h : ∀ x ∈ xs, p x = .ok (q x)) :
    xs.filterM p = .ok (xs.filter q) := by
  have haux : ∀ kept, xs.filterAuxM p kept = .ok ((xs.filter q).reverse ++ kept) := by
    induction xs with
    | nil => exact fun kept => rfl
    | cons x rest ih =>
        intro kept
        have hrest := ih (fun x hx => h x (List.mem_cons_of_mem _ hx)) (cond (q x) (x :: kept) kept)
        refine (bind_eq_ok_iff.2 ⟨q x, h x (by simp), hrest⟩).trans ?_
        cases hx : q x with
        | false => rw [List.filter_cons_of_neg (by simp [hx]), cond_false]
        | true => simp [hx]
  refine bind_eq_ok_iff.2 ⟨_, haux [], ?_⟩
  simp [pure, Except.pure]

/-- A test of each element succeeds when there is an answer for each, and keeps some of them. -/
theorem exists_filterM
    {p : α → Except ε Bool}
    {xs : List α}
    (h : ∀ x ∈ xs, ∃ answer, p x = .ok answer) :
    ∃ ys, xs.filterM p = .ok ys ∧ ∀ y ∈ ys, y ∈ xs := by
  have hq : ∀ x ∈ xs, p x = .ok ((p x).toOption.getD false) := by
    intro x hx
    obtain ⟨answer, ha⟩ := h x hx
    rw [ha]
    rfl
  exact ⟨_, filterM_eq_ok hq, fun y hy => List.mem_of_mem_filter hy⟩

end Result

end TypeGraph
