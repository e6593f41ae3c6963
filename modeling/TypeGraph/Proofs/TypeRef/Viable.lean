import TypeGraph.Proofs.TypeRef.Machine

/-!
# Tokens that can be gone on with

Tokens are viable when a derivation starts with them.  Whatever state the machine comes to, its open
brackets can be closed one after the other, so the machine takes tokens exactly as long as they are
viable.

**Results.**
* `Around.exists_finish`: what may end a member goes on to the end of a reference.
* `exists_run?_iff`: the machine takes tokens exactly when they are viable.
* `exists_finish?_iff`: it may stop exactly when they are derived.
-/

namespace TypeGraph
namespace TypeRef

/-- Tokens that a derivation of a reference has. -/
def Derivable (ts : List Token) : Prop :=
  ∃ u : Derivation .union, u.tokens = ts

/-- Tokens that a derivation of a reference starts with. -/
def Viable (ts : List Token) : Prop :=
  ∃ us, Derivable (ts ++ us)

namespace Reading

/-- Some tokens take the machine to the end of a reference. -/
def Completes (r : Reading) : Prop :=
  ∃ us r' p, r.run? us = some r' ∧ r'.finish? = some p

section Completes

variable {r next : Reading} {phrase : Phrase}

/-- A token on the way to the end. -/
theorem Completes.of_step
    {t : Token}
    (hr : r.step? t = some next)
    (h : next.Completes) :
    r.Completes := by
  obtain ⟨us, r', p, hrun, hfinish⟩ := h
  exact ⟨t :: us, r', p, by rw [run?_cons, hr, Option.bind_some, hrun], hfinish⟩

/-- Outside all brackets the machine may stop after what may end a member. -/
theorem exists_finish?_of_top
    (htop : r.level.opening = .top)
    (hp : r.mode.phrase? = some phrase) :
    ∃ p, r.finish? = some p := by
  obtain ⟨⟨opening, members⟩, outer, mode⟩ := r
  obtain rfl : opening = .top := htop
  cases mode with
  | wanting => cases hp
  | named text => exact ⟨_, rfl⟩
  | complete p => exact ⟨_, rfl⟩
  | bracket p => cases hp

end Completes
end Reading

section Closing

variable {level : Level} {outer : List Level} {mode : Mode} {ts us : List Token} {phrase : Phrase}

/-- What may end a member goes on to the end of a reference: the open brackets are closed. -/
theorem Around.exists_finish
    (h : Around level.opening outer ts)
    (hp : mode.phrase? = some phrase) :
    (Reading.mk level outer mode).Completes := by
  generalize ho : level.opening = opening at h
  induction h generalizing level mode phrase with
  | top =>
      obtain ⟨p, hfinish⟩ := Reading.exists_finish?_of_top (r := ⟨level, [], mode⟩) ho hp
      exact ⟨[], _, p, rfl, hfinish⟩
  | @bracket o level' outer ts us hne _ _ ih =>
      obtain ⟨opening, members⟩ := level
      obtain rfl : opening = o := ho
      have hclosed : ∀ {t q}, t ≠ .less →
          Reading.extend? ⟨⟨opening, members⟩, level' :: outer, mode⟩ phrase t =
            some ⟨level', outer, .complete q⟩ →
          (Reading.mk ⟨opening, members⟩ (level' :: outer) mode).Completes := by
        intro t q ht hextend
        have hstep := Reading.step?_of_phrase? (r := ⟨⟨opening, members⟩, level' :: outer, mode⟩) hp ht
        rw [hextend] at hstep
        exact .of_step hstep (ih rfl rfl)
      cases opening with
      | top => exact absurd rfl hne
      | group => exact hclosed (t := .closeParen) (by simp) rfl
      | first head => exact hclosed (t := .greater) (by simp) rfl
      | second head argument => exact hclosed (t := .greater) (by simp) rfl

/-- Whatever the machine has read, it goes on to the end of a reference. -/
theorem Reading.Spells.completes
    {r : Reading}
    (h : r.Spells ts) :
    r.Completes := by
  obtain @⟨level, outer, mode, ts, us, vs, haround, -, -⟩ := h
  have hends : ∀ {mode : Mode} {phrase : Phrase}, mode.phrase? = some phrase →
      (Reading.mk level outer mode).Completes := fun hp => haround.exists_finish hp
  cases mode with
  | wanting => exact .of_step (t := .name "name") rfl (hends rfl)
  | named text => exact hends rfl
  | complete p => exact hends rfl
  | bracket p => exact .of_step (t := .closeBracket) rfl (hends rfl)

end Closing

section Reaching

variable {ts : List Token} {r : Reading}

/-- The machine takes tokens exactly when they are viable. -/
theorem exists_run?_iff :
    (∃ r, Reading.start.run? ts = some r) ↔ Viable ts := by
  constructor
  · rintro ⟨r, hr⟩
    obtain ⟨us, r', p, hrun, hfinish⟩ := (Reading.spells_start.run hr).completes
    have hall : Reading.start.run? (ts ++ us) = some r' := by
      rw [Reading.run?_append, hr, Option.bind_some, hrun]
    obtain ⟨u, hu, -⟩ := run?_start_iff.1 ⟨r', hall, hfinish⟩
    exact ⟨us, u, hu⟩
  · rintro ⟨us, u, hu⟩
    obtain ⟨r', hrun, -⟩ := run?_start_iff.2 ⟨u, hu, rfl⟩
    rw [Reading.run?_append] at hrun
    obtain ⟨r, hr, -⟩ := Option.bind_eq_some_iff.1 hrun
    exact ⟨r, hr⟩

/-- The machine refuses a token exactly when no derivation goes on with it. -/
theorem step?_eq_none_iff
    {t : Token}
    (hr : Reading.start.run? ts = some r) :
    r.step? t = none ↔ ¬ Viable (ts ++ [t]) := by
  rw [← exists_run?_iff, Reading.run?_append, hr, Option.bind_some, Reading.run?_cons]
  cases r.step? t <;> simp

/-- The machine may stop exactly when the tokens are derived. -/
theorem exists_finish?_iff
    (hr : Reading.start.run? ts = some r) :
    (∃ p, r.finish? = some p) ↔ Derivable ts := by
  constructor
  · rintro ⟨p, hp⟩
    obtain ⟨u, hu, -⟩ := run?_start_iff.1 ⟨r, hr, hp⟩
    exact ⟨u, hu⟩
  · rintro ⟨u, hu⟩
    obtain ⟨r', hr', hp⟩ := run?_start_iff.2 ⟨u, hu, rfl⟩
    obtain rfl : r = r' := Option.some.inj (hr.symm.trans hr')
    exact ⟨_, hp⟩

/-- Tokens that are not viable have a first one that no derivation goes on with. -/
theorem exists_first_refused
    (h : ¬ Viable ts) :
    ∃ before t after, ts = before ++ t :: after ∧ Viable before ∧ ¬ Viable (before ++ [t]) := by
  induction ts using List.reverseRecOn with
  | nil => exact absurd (exists_run?_iff.1 ⟨_, rfl⟩) h
  | append_singleton ts t ih =>
      by_cases hts : Viable ts
      · exact ⟨ts, t, [], rfl, hts, h⟩
      · obtain ⟨before, u, after, rfl, hbefore, hu⟩ := ih hts
        exact ⟨before, u, after ++ [t], by simp, hbefore, hu⟩

end Reaching

end TypeRef
end TypeGraph
