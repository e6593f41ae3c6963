import Mathlib.Data.List.Nodup

/-!
# Looking things up by name

Things in a list that are told apart by a name are found by it.
-/

namespace TypeGraph

/-- Among things with different names, the one that is found has the name, and the one that has the
name is found. -/
theorem find?_key_eq_some_iff
    {α : Type}
    {key : α → String}
    {things : List α}
    (hn : (things.map key).Nodup)
    {name : String}
    {x : α} :
    (things.find? fun y => key y == name) = some x ↔ x ∈ things ∧ key x = name := by
  constructor
  · intro h
    exact ⟨List.mem_of_find?_eq_some h, by simpa using List.find?_some h⟩
  · rintro ⟨hx, rfl⟩
    cases hf : things.find? fun y => key y == key x with
    | none =>
        have hnone := List.find?_eq_none.1 hf x hx
        simp at hnone
    | some y =>
        have hy : key y = key x := by simpa using List.find?_some hf
        rw [List.inj_on_of_nodup_map hn (List.mem_of_find?_eq_some hf) hx hy]

/-- What a key leads to when the values are changed. -/
theorem lookup_map_value
    {α β γ : Type}
    [BEq α]
    (entries : List (α × β))
    (f : β → γ)
    (key : α) :
    (entries.map fun entry => (entry.1, f entry.2)).lookup key = (entries.lookup key).map f := by
  induction entries with
  | nil => rfl
  | cons entry rest ih =>
      obtain ⟨known, value⟩ := entry
      simp only [List.map_cons, List.lookup_cons, ih]
      split <;> rfl

end TypeGraph
