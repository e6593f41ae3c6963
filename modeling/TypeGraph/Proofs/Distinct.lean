import Mathlib.Data.List.Induction
import Mathlib.Data.List.Nodup

/-!
# Lists without their repetitions

`List.eraseDups` keeps each element of a list where it is met first.

**Results.**
* `eraseDups_induction`: the induction that follows it.
* `nodup_eraseDups`, `eraseDups_of_nodup`: it removes all repetitions, and nothing else.
* `filter_eraseDups`, `exists_eraseDups_append`: what it makes of parts of a list.
* `findSome?_eraseDups`: the first result among the elements stays the same.
* `listsOnce_iff`: what is kept is each element once, in the order in which they come first.
* `eraseDups_append_eraseDups`, `eraseDups_append_self`: repetitions may be erased in a part before, and
  what stands in front already adds nothing.
-/

namespace TypeGraph

section EraseDups

variable {α : Type} [DecidableEq α]

/-- The induction that follows `List.eraseDups`: a list is preceded by its rest without what repeats
its first element. -/
theorem eraseDups_induction
    {motive : List α → Prop}
    (l : List α)
    (nil : motive [])
    (cons : ∀ a rest, motive (rest.filter fun b => !b == a) → motive (a :: rest)) :
    motive l := by
  induction hk : l.length using Nat.strongRecOn generalizing l with
  | _ k ih =>
      cases l with
      | nil => exact nil
      | cons a rest =>
          have hlt : (rest.filter fun b => !b == a).length < k := by
            rw [← hk, List.length_cons]
            exact Nat.lt_succ_of_le (List.length_filter_le _ _)
          exact cons a rest (ih _ hlt _ rfl)

theorem nodup_eraseDups
    (l : List α) :
    l.eraseDups.Nodup := by
  induction l using eraseDups_induction with
  | nil => simp
  | cons a rest ih =>
      rw [List.eraseDups_cons, List.nodup_cons]
      exact ⟨by simp, ih⟩

theorem eraseDups_of_nodup
    {l : List α}
    (h : l.Nodup) :
    l.eraseDups = l := by
  induction l with
  | nil => simp
  | cons a rest ih =>
      obtain ⟨hnew, hrest⟩ := List.nodup_cons.1 h
      have hkeep : (rest.filter fun b => !b == a) = rest := by
        refine List.filter_eq_self.2 fun b hb => ?_
        have hne : b ≠ a := fun he => hnew (he ▸ hb)
        simpa using hne
      rw [List.eraseDups_cons, hkeep, ih hrest]

/-- Repetitions can be erased before or after elements are left out. -/
theorem filter_eraseDups
    (p : α → Bool)
    (l : List α) :
    l.eraseDups.filter p = (l.filter p).eraseDups := by
  induction l using eraseDups_induction with
  | nil => simp
  | cons a rest ih =>
      rw [List.eraseDups_cons, List.filter_cons, List.filter_cons, ih]
      by_cases ha : p a
      · rw [if_pos ha, if_pos ha, List.eraseDups_cons, List.filter_filter, List.filter_filter]
        simp only [Bool.and_comm]
      · rw [if_neg ha, if_neg ha, List.filter_filter]
        refine congrArg _ (List.filter_congr ?_)
        intro b _
        by_cases hb : b = a
        · simp [hb, ha]
        · simp [hb]

/-- What follows some elements is listed after them as far as it is not among them. -/
theorem exists_eraseDups_append
    (first more : List α) :
    ∃ rest, (first ++ more).eraseDups = first.eraseDups ++ rest ∧ ∀ a ∈ rest, a ∉ first := by
  refine ⟨_, List.eraseDups_append, fun a ha => ?_⟩
  rw [List.mem_eraseDups, List.removeAll] at ha
  simpa using (List.mem_filter.1 ha).2

/-- A last element is listed if it is new. -/
theorem eraseDups_concat
    (l : List α)
    (a : α) :
    (l ++ [a]).eraseDups = if a ∈ l then l.eraseDups else l.eraseDups ++ [a] := by
  rw [List.eraseDups_append]
  split
  · rename_i hmem
    simp [List.removeAll, hmem]
  · rename_i hnew
    simp [List.removeAll, hnew, eraseDups_of_nodup]

omit [DecidableEq α] in
/-- Elements without a result can be left out before the first result is looked for. -/
theorem findSome?_filter
    {β : Type}
    {f : α → Option β}
    {p : α → Bool}
    {l : List α}
    (h : ∀ a ∈ l, p a = false → f a = none) :
    (l.filter p).findSome? f = l.findSome? f := by
  induction l with
  | nil => rfl
  | cons a rest ih =>
      have hrest := ih fun b hb => h b (List.mem_cons_of_mem _ hb)
      by_cases ha : p a = true
      · rw [List.filter_cons_of_pos ha, List.findSome?_cons, List.findSome?_cons, hrest]
      · have hnone := h a (by simp) (by simpa using ha)
        rw [List.filter_cons_of_neg ha, List.findSome?_cons, hnone, hrest]

/-- The first result among some elements does not depend on repetitions. -/
theorem findSome?_eraseDups
    {β : Type}
    (f : α → Option β)
    (l : List α) :
    l.eraseDups.findSome? f = l.findSome? f := by
  induction l using eraseDups_induction with
  | nil => simp
  | cons a rest ih =>
      rw [List.eraseDups_cons, List.findSome?_cons, List.findSome?_cons, ih]
      cases ha : f a with
      | some found => rfl
      | none =>
          refine findSome?_filter fun b _ hb => ?_
          have he : b = a := by simpa using hb
          rw [he, ha]

omit [DecidableEq α] in
/-- The first result among several lists is that of the first list with a result. -/
theorem findSome?_flatMap
    {β γ : Type}
    (f : β → Option γ)
    (g : α → List β)
    (l : List α) :
    (l.flatMap g).findSome? f = l.findSome? fun a => (g a).findSome? f := by
  induction l with
  | nil => rfl
  | cons a rest ih =>
      rw [List.flatMap_cons, List.findSome?_append, List.findSome?_cons, ih]
      cases (g a).findSome? f <;> rfl

/-- The first list has each element of the second one once, in the order in which they come first
there. -/
structure ListsOnce (once l : List α) : Prop where
  nodup : once.Nodup
  mem_iff : ∀ a, a ∈ once ↔ a ∈ l
  ordered : once.Pairwise fun a b => l.idxOf a < l.idxOf b

/-- Elements are kept in the order in which they come first. -/
theorem pairwise_idxOf_eraseDups
    (l : List α) :
    l.eraseDups.Pairwise fun a b => l.idxOf a < l.idxOf b := by
  induction l using List.reverseRecOn with
  | nil => simp
  | append_singleton l last ih =>
      have hstays : ∀ a ∈ l, (l ++ [last]).idxOf a = l.idxOf a := fun a ha =>
        List.idxOf_append_of_mem ha
      have hkept : l.eraseDups.Pairwise fun a b =>
          (l ++ [last]).idxOf a < (l ++ [last]).idxOf b := by
        refine ih.imp_of_mem fun {a b} ha hb hab => ?_
        rwa [hstays a (List.mem_eraseDups.1 ha), hstays b (List.mem_eraseDups.1 hb)]
      rw [eraseDups_concat]
      split_ifs with hlast
      · exact hkept
      · refine List.pairwise_append.2 ⟨hkept, List.pairwise_singleton _ _, fun a ha b hb => ?_⟩
        have ha := List.mem_eraseDups.1 ha
        rw [List.mem_singleton.1 hb, hstays a ha, List.idxOf_append_of_notMem hlast]
        exact Nat.lt_add_right _ (List.idxOf_lt_length_of_mem ha)

/-- What is kept is such a list, and there is no other one. -/
theorem listsOnce_iff
    {once l : List α} :
    ListsOnce once l ↔ once = l.eraseDups := by
  constructor
  · intro h
    have hperm : once.Perm l.eraseDups :=
      (List.perm_ext_iff_of_nodup h.nodup (nodup_eraseDups l)).2 fun a =>
        (h.mem_iff a).trans List.mem_eraseDups.symm
    refine hperm.eq_of_pairwise (fun a b _ _ hab hba => ?_) h.ordered (pairwise_idxOf_eraseDups l)
    exact absurd hba (Nat.lt_asymm hab)
  · rintro rfl
    exact ⟨nodup_eraseDups l, fun _ => List.mem_eraseDups, pairwise_idxOf_eraseDups l⟩

/-- Repetitions may be erased in a part before they are erased in the whole. -/
theorem eraseDups_append_eraseDups
    (first more : List α) :
    (first ++ more.eraseDups).eraseDups = (first ++ more).eraseDups := by
  have hmore : (more.eraseDups.removeAll first).eraseDups = (more.removeAll first).eraseDups := by
    rw [List.removeAll, List.removeAll, filter_eraseDups, eraseDups_of_nodup (nodup_eraseDups _)]
  rw [List.eraseDups_append, hmore, ← List.eraseDups_append]

/-- What stands in front already adds nothing. -/
theorem eraseDups_append_self
    (first more : List α) :
    (first ++ (first ++ more)).eraseDups = (first ++ more).eraseDups := by
  have hmore : (first ++ more).removeAll first = more.removeAll first := by
    simp [List.removeAll, List.filter_append]
  rw [List.eraseDups_append, hmore, ← List.eraseDups_append]

end EraseDups

end TypeGraph
