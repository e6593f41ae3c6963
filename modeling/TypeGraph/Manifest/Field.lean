import TypeGraph.Manifest.Basic
import TypeGraph.Manifest.Defect

/-!
# Fields of a manifest

The readers of single fields that the records of a manifest share.  An absent field reads as null
throughout, and a field that no reader asks for is never looked at.

**Results.**
* `firstRepeat?_eq_none_iff`: a list has no repeated element exactly when its elements are distinct.
-/

namespace TypeGraph

/-- The first element of a list that occurred before it, given the elements already `seen`. -/
def firstRepeatFrom (seen : List String) : List String → Option String
  | [] => none
  | x :: rest => if seen.contains x then some x else firstRepeatFrom (x :: seen) rest

/-- The first element of a list that occurred before it. -/
def firstRepeat? (names : List String) : Option String :=
  firstRepeatFrom [] names

theorem firstRepeatFrom_eq_none_iff
    (seen names : List String) :
    firstRepeatFrom seen names = none ↔ names.Nodup ∧ ∀ x ∈ names, x ∉ seen := by
  induction names generalizing seen with
  | nil => simp [firstRepeatFrom]
  | cons x rest ih =>
      by_cases h : x ∈ seen
      · simp [firstRepeatFrom, h]
      · simp only [firstRepeatFrom, List.contains_iff_mem, h, if_false, ih, List.mem_cons,
          List.nodup_cons, forall_eq_or_imp, not_false_eq_true, true_and]
        constructor
        · rintro ⟨hn, hx⟩
          exact ⟨⟨fun hm => hx x hm (Or.inl rfl), hn⟩, fun y hy hys => hx y hy (Or.inr hys)⟩
        · rintro ⟨⟨hx, hn⟩, hs⟩
          refine ⟨hn, fun y hy => ?_⟩
          rintro (rfl | hys)
          · exact hx hy
          · exact hs y hy hys

/-- A list has no repeated element exactly when its elements are distinct. -/
theorem firstRepeat?_eq_none_iff (names : List String) :
    firstRepeat? names = none ↔ names.Nodup := by
  simp [firstRepeat?, firstRepeatFrom_eq_none_iff]

namespace Json
namespace Fields

/-- A text field that may be absent. -/
def optionalString (fields : Fields) (field : String) : Except Defect (Option String) :=
  match fields.get field with
  | .null => .ok none
  | .string s => .ok (some s)
  | _ => .error (.notString field)

/-- A flag; an absent one is down. -/
def flag (fields : Fields) (field : String) : Except Defect Bool :=
  match fields.get field with
  | .null => .ok false
  | .bool b => .ok b
  | _ => .error (.notBoolean field)

/-- A list; an absent one is empty. -/
def list (fields : Fields) (field : String) : Except Defect (List Json) :=
  match fields.get field with
  | .null => .ok []
  | .array items => .ok items
  | _ => .error (.notList field)

/-- The documentation of a record. -/
def docs (fields : Fields) : Except Defect Docs :=
  match fields.get "docs" with
  | .null => .ok .empty
  | .object inner => do
      let summary ← optionalString inner "summary"
      let remarks ← optionalString inner "remarks"
      let deprecated ← optionalString inner "deprecated"
      let stability ← optionalString inner "stability"
      return ⟨summary, remarks, deprecated, stability⟩
  | _ => .error .docsShape

end Fields

/-- An older spelling of optional values marks the type reference itself. -/
def marksOptional : Json → Bool
  | .object fields =>
      match Fields.get fields "optional" with
      | .bool b => b
      | _ => false
  | _ => false

end Json
end TypeGraph
