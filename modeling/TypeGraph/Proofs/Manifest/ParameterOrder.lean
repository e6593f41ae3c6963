import TypeGraph.Manifest.Member

/-!
# Parameters in order

A list of parameters is in order when it is a run of required ones, then one of optional ones, then at
most one that takes any number of arguments.  Whether the owner takes any number of arguments is what
the last parameter says, and that is whether there is such a one.

**Results.**
* `Parameter.checkOrder_eq_ok_iff`: the lists that pass the check are those in order.
* `Parameter.Layout.anyVariadic`: what the last parameter says.
-/

namespace TypeGraph
namespace Parameter

/-- A list of parameters is a run of required ones, then one of optional ones, then at most one that
takes any number of arguments. -/
structure Layout
    (required optional : List Parameter)
    (last : Option Parameter)
    (ps : List Parameter) : Prop where
  parts : ps = required ++ optional ++ last.toList
  required : ∀ p ∈ required, p.isOptional = false ∧ p.isVariadic = false
  optional : ∀ p ∈ optional, p.isOptional = true ∧ p.isVariadic = false
  last : ∀ p ∈ last, p.isVariadic = true

section Order

variable {owner : ParameterOwner} {p : Parameter} {ps required optional : List Parameter}
  {last : Option Parameter} {optionalSeen : Bool}

theorem Layout.cons_required
    (h : Layout required optional last ps)
    (ho : p.isOptional = false)
    (hv : p.isVariadic = false) :
    Layout (p :: required) optional last (p :: ps) where
  parts := by rw [h.parts]; rfl
  required := List.forall_mem_cons.2 ⟨⟨ho, hv⟩, h.required⟩
  optional := h.optional
  last := h.last

theorem Layout.cons_optional
    (h : Layout [] optional last ps)
    (ho : p.isOptional = true)
    (hv : p.isVariadic = false) :
    Layout [] (p :: optional) last (p :: ps) where
  parts := by rw [h.parts]; rfl
  required := h.required
  optional := List.forall_mem_cons.2 ⟨⟨ho, hv⟩, h.optional⟩
  last := h.last

theorem layout_singleton
    (hv : p.isVariadic = true) :
    Layout [] [] (some p) [p] where
  parts := rfl
  required := by simp
  optional := by simp
  last := by simpa using hv

theorem layout_nil :
    Layout [] [] none [] where
  parts := rfl
  required := by simp
  optional := by simp
  last := by simp

/-- The first of some parameters is the first of the runs that is not empty. -/
theorem Layout.cons_cases
    (h : Layout required optional last (p :: ps)) :
    (∃ rest, required = p :: rest ∧ p.isOptional = false ∧ p.isVariadic = false ∧
        Layout rest optional last ps) ∨
      (required = [] ∧ ∃ rest, optional = p :: rest ∧ p.isOptional = true ∧
        p.isVariadic = false ∧ Layout [] rest last ps) ∨
      (required = [] ∧ optional = [] ∧ last = some p ∧ p.isVariadic = true ∧ ps = []) := by
  obtain ⟨hparts, hrequired, hoptional, hlast⟩ := h
  cases required with
  | cons q rest =>
      obtain ⟨rfl, rfl⟩ := List.cons.inj hparts
      obtain ⟨hp, hrest⟩ := List.forall_mem_cons.1 hrequired
      exact Or.inl ⟨rest, rfl, hp.1, hp.2, ⟨rfl, hrest, hoptional, hlast⟩⟩
  | nil =>
      cases optional with
      | cons q rest =>
          obtain ⟨rfl, rfl⟩ := List.cons.inj hparts
          obtain ⟨hp, hrest⟩ := List.forall_mem_cons.1 hoptional
          exact Or.inr (Or.inl ⟨rfl, rest, rfl, hp.1, hp.2, ⟨rfl, hrequired, hrest, hlast⟩⟩)
      | nil =>
          cases last with
          | none => cases hparts
          | some q =>
              obtain ⟨rfl, rfl⟩ := List.cons.inj hparts
              exact Or.inr (Or.inr ⟨rfl, rfl, rfl, hlast p rfl, rfl⟩)

/-- Parameters in order; after an optional one none is required. -/
def InOrder (optionalSeen : Bool) (ps : List Parameter) : Prop :=
  ∃ required optional last, Layout required optional last ps ∧
    (optionalSeen = true → required = [])

theorem inOrder_cons_of_variadic
    (hv : p.isVariadic = true) :
    InOrder optionalSeen (p :: ps) ↔ ps = [] := by
  constructor
  · rintro ⟨required, optional, last, h, -⟩
    rcases h.cons_cases with ⟨_, _, _, hf, _⟩ | ⟨_, _, _, _, hf, _⟩ | ⟨_, _, _, _, hnil⟩
    · simp [hv] at hf
    · simp [hv] at hf
    · exact hnil
  · rintro rfl
    exact ⟨[], [], some p, layout_singleton hv, fun _ => rfl⟩

theorem inOrder_cons_of_optional
    (ho : p.isOptional = true)
    (hv : p.isVariadic = false) :
    InOrder optionalSeen (p :: ps) ↔ InOrder true ps := by
  constructor
  · rintro ⟨required, optional, last, h, -⟩
    rcases h.cons_cases with ⟨_, _, hf, _⟩ | ⟨_, more, _, _, _, hmore⟩ | ⟨_, _, _, hf, _⟩
    · simp [ho] at hf
    · exact ⟨[], more, last, hmore, fun _ => rfl⟩
    · simp [hv] at hf
  · rintro ⟨required, optional, last, h, hnone⟩
    obtain rfl := hnone rfl
    exact ⟨[], p :: optional, last, h.cons_optional ho hv, fun _ => rfl⟩

theorem inOrder_cons_of_required
    (ho : p.isOptional = false)
    (hv : p.isVariadic = false) :
    InOrder optionalSeen (p :: ps) ↔ optionalSeen = false ∧ InOrder false ps := by
  constructor
  · rintro ⟨required, optional, last, h, hnone⟩
    rcases h.cons_cases with ⟨more, hmore, _, _, hrest⟩ | ⟨_, _, _, hf, _⟩ | ⟨_, _, _, hf, _⟩
    · refine ⟨?_, more, optional, last, hrest, by simp⟩
      cases optionalSeen with
      | true => exact absurd (hmore.symm.trans (hnone rfl)) (by simp)
      | false => rfl
    · simp [ho] at hf
    · simp [hv] at hf
  · rintro ⟨rfl, required, optional, last, h, -⟩
    exact ⟨p :: required, optional, last, h.cons_required ho hv, by simp⟩

/-- The lists of parameters that pass the check are those in order. -/
theorem checkOrder_eq_ok_iff :
    checkOrder owner optionalSeen ps = .ok () ↔ InOrder optionalSeen ps := by
  induction ps generalizing optionalSeen with
  | nil => exact ⟨fun _ => ⟨[], [], none, layout_nil, fun _ => rfl⟩, fun _ => rfl⟩
  | cons p rest ih =>
      rw [checkOrder]
      cases hv : p.isVariadic with
      | true =>
          rw [inOrder_cons_of_variadic hv]
          cases rest with
          | nil => simp [checkOrder]
          | cons q more => simp
      | false =>
          cases ho : p.isOptional with
          | true => simp [inOrder_cons_of_optional ho hv, ih]
          | false => cases optionalSeen <;> simp [inOrder_cons_of_required ho hv, ih]

/-- The last parameter takes any number of arguments when there is one that may. -/
theorem Layout.anyVariadic
    (h : Layout required optional last ps) :
    anyVariadic ps = last.isSome := by
  obtain ⟨hparts, hrequired, hoptional, hlast⟩ := h
  rw [Parameter.anyVariadic, hparts]
  cases last with
  | some p => simpa using hlast p rfl
  | none =>
      rw [Option.toList_none, List.append_nil, Option.isSome_none]
      cases hp : (required ++ optional).getLast? with
      | none => rfl
      | some p =>
          rcases List.mem_append.1 (List.mem_of_getLast? hp) with hmem | hmem
          · exact (hrequired p hmem).2
          · exact (hoptional p hmem).2

end Order

end Parameter
end TypeGraph
